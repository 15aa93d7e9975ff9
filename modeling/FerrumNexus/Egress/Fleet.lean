import FerrumNexus.Egress.Summaries
import Mathlib.Data.Fintype.Card

/-!
# A fleet behind a control plane

The history of a fleet of data planes, in milliseconds of one true clock: which
processes ran in which slot, and what an answer of the control plane may list.
Every sequence of policy reads counts at most one settled process of each slot.
-/
namespace FerrumNexus.Egress

open Formats

/-- How long a stream stays listed after its process died. -/
def STALE_STREAM_MS : ℚ := 40000

/-- The processes of a fleet of `N` slots. -/
structure Fleet (N : ℕ) where
  Process : Type
  slot : Process → Fin N
  nodeId : Process → String
  started : Process → ℚ
  died : Process → Option ℚ
  fresh : Function.Injective nodeId
  /-- Of two processes of one slot, one died before the other started. -/
  sequential : ∀ p q, slot p = slot q → p ≠ q →
    (∃ d, died p = some d ∧ d ≤ started q) ∨ ∃ d, died q = some d ∧ d ≤ started p

namespace Fleet

variable {N : ℕ} (fleet : Fleet N)

/-- A process whose stream may be listed: started, and alive or lately dead. -/
structure Listable (p : fleet.Process) (now : ℚ) : Prop where
  started : fleet.started p ≤ now
  stale : ∀ d, fleet.died p = some d → now ≤ d + STALE_STREAM_MS

/-- A process that started longer ago than a stale stream lasts. -/
def Settled (p : fleet.Process) (now : ℚ) : Prop := fleet.started p + STALE_STREAM_MS < now

variable {fleet}

/-- Of the settled processes of one slot, one at most is listed. -/
theorem eq_of_settled {p q : fleet.Process} {now : ℚ} (hp : fleet.Listable p now)
    (hq : fleet.Listable q now) (hsp : fleet.Settled p now) (hsq : fleet.Settled q now)
    (hslot : fleet.slot p = fleet.slot q) : p = q := by
  by_contra hne
  unfold Settled at hsp hsq
  rcases fleet.sequential p q hslot hne with ⟨d, hd, hle⟩ | ⟨d, hd, hle⟩
  · have := hp.stale d hd
    linarith
  · have := hq.stale d hd
    linarith

/-- Distinct `node_id`s of settled, listed processes are no more than the slots. -/
theorem length_le_slots {nodeIds : List String} {now : ℚ} (hnodup : nodeIds.Nodup)
    (h : ∀ id ∈ nodeIds, ∃ p, fleet.nodeId p = id ∧ fleet.Listable p now ∧ fleet.Settled p now) :
    nodeIds.length ≤ N := by
  choose process hid hlist hsettled using h
  have hcard : nodeIds.length = nodeIds.attach.length := by simp
  rw [hcard]
  have hinj : (nodeIds.attach.map fun id => fleet.slot (process id.1 id.2)).Nodup := by
    rw [List.nodup_map_iff_inj_on (List.nodup_attach.2 hnodup)]
    intro x _ y _ hslot
    have heq := eq_of_settled (hlist x.1 x.2) (hlist y.1 y.2) (hsettled x.1 x.2) (hsettled y.1 y.2)
      hslot
    exact Subtype.ext ((hid x.1 x.2).symm.trans ((congrArg fleet.nodeId heq).trans (hid y.1 y.2)))
  calc nodeIds.attach.length
      = (nodeIds.attach.map fun id => fleet.slot (process id.1 id.2)).length := by simp
    _ ≤ Fintype.card (Fin N) := hinj.length_le_card
    _ = N := Fintype.card_fin N

end Fleet

/-! ## Reads -/

/-- One policy read: what Nexus sees of it, and the instant the answer was built at. -/
structure Read (ν : Type) where
  value : Json ν
  gatewayDate : Option ℤ
  /-- Nexus's wall clock when the request was sent. -/
  readAt : ℤ
  /-- Nexus's monotonic clock when the request was sent. -/
  startedAt : ℚ
  /-- Nexus's monotonic clock after the answer arrived. -/
  seenAt : ℚ
  answeredAt : ℚ

section Reads

variable {ν : Type} [DecidableEq ν] (format : NumberFormat ν) (nspace : String)

/-- `readEgressPolicy`: the reading with its freshness, `none` where the answer is refused. -/
def readEgressPolicy (sightings : Sightings) (read : Read ν) :
    Option (BackendEgressPolicyReading × DataPlaneFreshness) × Sightings :=
  match readBackendEgressPolicy format read.value nspace with
  | none => (none, sightings)
  | some reading =>
    if reading.attestationProblem = none then
      let observed := observe sightings reading.policy read.startedAt read.seenAt
      (some (reading, ⟨read.readAt, read.gatewayDate, observed.1⟩), observed.2)
    else (some (reading, ⟨read.readAt, read.gatewayDate, []⟩), sightings)

/-- The sightings after some reads. -/
def sightingsAfter (reads : List (Read ν)) : Sightings :=
  reads.foldl (fun sightings read => (readEgressPolicy format nspace sightings read).2) []

end Reads

/-- The clocks of a deployment, against the true one: the control plane's and Nexus's monotonic
clock are steady. A `Date` is stamped at most `lag` after its answer was built. -/
structure Clocks where
  controlPlane : ℚ
  monotonic : ℚ
  lag : ℚ
  lag_lt : lag + STALE_STREAM_MS + 2 < SETTLED_AGE_MS

/-- A listed stream: a process that may be listed, and an instant since it started, on the control
plane's clock, cut to whole milliseconds at most. -/
structure Stream {N : ℕ} (fleet : Fleet N) (clocks : Clocks) (now : ℚ)
    (entry : DataPlaneEgressEntry) (p : fleet.Process) : Prop where
  nodeId : fleet.nodeId p = entry.nodeId
  listable : fleet.Listable p now
  connected : ∃ fields, exec entry.connectedAt.toList = some fields ∧
    fleet.started p + clocks.controlPlane ≤ fields.instant + 1

/-- A read the deployment can give. -/
structure Faithful {N : ℕ} {ν : Type} [DecidableEq ν] (format : NumberFormat ν) (nspace : String)
    (fleet : Fleet N) (clocks : Clocks) (read : Read ν) : Prop where
  sent : read.startedAt ≤ read.answeredAt + clocks.monotonic
  arrived : read.answeredAt + clocks.monotonic ≤ read.seenAt
  date : ∀ date, read.gatewayDate = some date →
    (date : ℚ) ≤ read.answeredAt + clocks.controlPlane + clocks.lag
  lists : ∀ reading attestation, readBackendEgressPolicy format read.value nspace = some reading →
    reading.policy.dataPlaneAttestation = some attestation →
    ∀ entry ∈ attestation.dataPlanes, ∃ p, Stream fleet clocks read.answeredAt entry p

/-! ## Sightings are honest -/

/-- Every `node_id` remembered is a process that had started when it was first seen. -/
def Honest {N : ℕ} (fleet : Fleet N) (clocks : Clocks) (sightings : Sightings) : Prop :=
  ∀ entry ∈ sightings, ∃ p, fleet.nodeId p = entry.1 ∧
    fleet.started p + clocks.monotonic ≤ entry.2.first

theorem mem_sight {seenAt : ℚ} {sightings : Sightings} {nodeId : String}
    {entry : String × Sighting} (h : entry ∈ sight seenAt sightings nodeId) :
    entry = (nodeId, ⟨seenAt, seenAt⟩) ∨
      ∃ old ∈ sightings, old.1 = entry.1 ∧ old.2.first = entry.2.first := by
  unfold sight at h
  split at h
  · rcases List.mem_append.1 h with h | h
    · exact .inr ⟨entry, h, rfl, rfl⟩
    · exact .inl (List.mem_singleton.1 h)
  · obtain ⟨old, hold, rfl⟩ := List.mem_map.1 h
    refine .inr ⟨old, hold, ?_⟩
    split_ifs <;> exact ⟨rfl, rfl⟩

theorem forget_sublist (seenAt : ℚ) (listed : List String) (sightings : Sightings) (size : ℕ) :
    (forget seenAt listed sightings size).Sublist sightings := by
  induction sightings generalizing size with
  | nil => exact List.Sublist.refl _
  | cons entry sightings ih =>
    obtain ⟨nodeId, sighting⟩ := entry
    unfold forget
    split_ifs
    · exact (ih size).cons_cons _
    · exact (ih (size - 1)).cons _
    · exact (ih size).cons_cons _

section Steps

variable {N : ℕ} {fleet : Fleet N} {clocks : Clocks} {sightings : Sightings}

theorem honest_sight (h : Honest fleet clocks sightings) {seenAt : ℚ} {nodeIds : List String}
    (hids : ∀ id ∈ nodeIds, ∃ p, fleet.nodeId p = id ∧ fleet.started p + clocks.monotonic ≤ seenAt) :
    Honest fleet clocks (nodeIds.foldl (sight seenAt) sightings) := by
  induction nodeIds generalizing sightings with
  | nil => exact h
  | cons id ids ih =>
    refine ih ?_ fun other hother => hids other (by simp [hother])
    intro entry hentry
    rcases mem_sight hentry with rfl | ⟨old, hold, hid, hfirst⟩
    · exact hids id (by simp)
    · obtain ⟨p, hp, hle⟩ := h old hold
      exact ⟨p, hp.trans hid, hfirst ▸ hle⟩

theorem mem_of_get {nodeId : String} {sighting : Sighting}
    (h : sightings.get nodeId = some sighting) : (nodeId, sighting) ∈ sightings := by
  obtain ⟨entry, hfind, rfl⟩ := Option.map_eq_some_iff.1 h
  have hname : entry.1 = nodeId := by simpa using List.find?_some hfind
  exact hname ▸ List.mem_of_find?_eq_some hfind

variable {ν : Type} [DecidableEq ν] {format : NumberFormat ν} {nspace : String}

theorem mem_listedNodes {policy : BackendEgressPolicy} {id : String} (h : id ∈ listedNodes policy) :
    ∃ attestation, policy.dataPlaneAttestation = some attestation ∧
      ∃ entry ∈ attestation.dataPlanes, entry.nodeId = id := by
  unfold listedNodes at h
  rw [List.mem_eraseDups] at h
  split_ifs at h
  · cases hatt : policy.dataPlaneAttestation with
    | none => simp [hatt] at h
    | some attestation =>
      simp only [hatt, Option.elim_some, List.mem_map] at h
      exact ⟨attestation, rfl, h⟩
  · simp at h

/-- One faithful read keeps the sightings honest. -/
theorem honest_read {read : Read ν} (hread : Faithful format nspace fleet clocks read)
    (h : Honest fleet clocks sightings) :
    Honest fleet clocks (readEgressPolicy format nspace sightings read).2 := by
  unfold readEgressPolicy
  cases hvalue : readBackendEgressPolicy format read.value nspace with
  | none => exact h
  | some reading =>
    dsimp only
    split_ifs
    · have hids : ∀ id ∈ listedNodes reading.policy, ∃ p, fleet.nodeId p = id ∧
          fleet.started p + clocks.monotonic ≤ read.seenAt := by
        intro id hid
        obtain ⟨attestation, hatt, entry, hentry, rfl⟩ := mem_listedNodes hid
        obtain ⟨p, hp⟩ := hread.lists reading attestation hvalue hatt entry hentry
        have hstarted := hp.listable.started
        have harrived := hread.arrived
        exact ⟨p, hp.nodeId, by linarith⟩
      have hsighted := honest_sight h hids
      intro entry hentry
      exact hsighted entry ((forget_sublist _ _ _ _).subset hentry)
    · exact h

/-- The sightings of every sequence of reads are honest. -/
theorem honest_run {reads : List (Read ν)}
    (hreads : ∀ read ∈ reads, Faithful format nspace fleet clocks read) :
    Honest fleet clocks (sightingsAfter format nspace reads) := by
  unfold sightingsAfter
  induction reads using List.reverseRecOn with
  | nil => exact fun entry hentry => absurd hentry (by simp)
  | append_singleton reads read ih =>
    rw [List.foldl_append]
    exact honest_read (hreads read (by simp)) (ih fun other hother => hreads other (by simp [hother]))

/-! ## Two ways to settle -/

/-- A `node_id` settled by a sighting is that of a process settled when the answer was built. -/
theorem settled_of_sighted {read : Read ν} (hread : Faithful format nspace fleet clocks read)
    (h : Honest fleet clocks sightings) {id : String}
    (hid : isSighted read.startedAt sightings id = true) {p : fleet.Process}
    (hp : fleet.nodeId p = id) : fleet.Settled p read.answeredAt := by
  unfold isSighted at hid
  cases hget : sightings.get id with
  | none => simp [hget] at hid
  | some sighting =>
    simp only [hget, Option.any_some, decide_eq_true_eq] at hid
    obtain ⟨q, hq, hle⟩ := h _ (mem_of_get hget)
    obtain rfl : q = p := fleet.fresh (hq.trans hp.symm)
    have hsent := hread.sent
    have hsettle : (DATA_PLANE_SETTLE_MS : ℚ) = 60000 := by norm_num [DATA_PLANE_SETTLE_MS]
    unfold Fleet.Settled STALE_STREAM_MS
    rw [hsettle] at hid
    dsimp only at hle
    linarith

/-- A `node_id` settled by its stream's age is that of a process settled then. -/
theorem settled_of_age {ceilMillis : List Char → ℤ}
    (hceil : ∀ digits, 1000 * fractionOf digits ≤ ceilMillis digits + 1) {read : Read ν}
    (hread : Faithful format nspace fleet clocks read) {date : ℤ}
    (hdate : read.gatewayDate = some date) {entry : DataPlaneEgressEntry} {p : fleet.Process}
    (hp : Stream fleet clocks read.answeredAt entry p)
    (hage : SETTLED_AGE_MS ≤ date - connectedMillis ceilMillis entry) :
    fleet.Settled p read.answeredAt := by
  obtain ⟨fields, hexec, hconnected⟩ := hp.connected
  have hmillis : rfc3339Millis ceilMillis entry.connectedAt.toList =
      some (connectedMillis ceilMillis entry) := by
    simp [connectedMillis, rfc3339Millis, hexec]
  have hinstant := instant_le_rfc3339Millis hceil hexec hmillis
  have hstamp := hread.date date hdate
  have hlag := clocks.lag_lt
  have hage' : (SETTLED_AGE_MS : ℚ) ≤ date - connectedMillis ceilMillis entry := by
    exact_mod_cast hage
  unfold Fleet.Settled
  linarith

end Steps

end FerrumNexus.Egress
