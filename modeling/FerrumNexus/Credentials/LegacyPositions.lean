import FerrumNexus.Credentials.LegacyScan

/-!
# Which historical appends stay accounted for

A scan that reaches its end leaves every event backed by a live row or a
placeholder, unless a later event of the consumer says its HTTP Basic entries
were emptied. The read of those later events takes a whole-type revocation of
any type for one of HTTP Basic.
-/
namespace FerrumNexus.Credentials.LegacyScan

open Saga Platform
open Portal (ConsumerId UserRecord)

variable {s s' s'' : Tables} {event : AuditLogRecord} {c : ConsumerId}

/-! ## Later events -/

instance : Std.Total NewerFirst where
  total a b := by
    unfold NewerFirst
    omega

instance : IsTrans AuditLogRecord NewerFirst where
  trans a b c hab hbc := by
    unfold NewerFirst at *
    omega

variable {filter : AuditLogFilter} {row : AuditLogRecord} {Q : Unit → Tables → Prop}

theorem mem_auditList :
    row ∈ s.auditList filter ↔ row ∈ s.audit_logs ∧ filter.accepts row = true := by
  rw [Tables.auditList, List.mem_insertionSort, List.mem_filter]

/-- The newest row alone says whether there is a later one. -/
theorem newest_later {since : ℕ} :
    (((s.auditList filter).drop 0).take 1).any (fun row => since < row.created_at) = true ↔
      ∃ row ∈ s.auditList filter, since < row.created_at := by
  have hsorted : (s.auditList filter).Pairwise NewerFirst := List.pairwise_insertionSort _ _
  rw [List.drop_zero]
  cases hlist : s.auditList filter with
  | nil => simp
  | cons newest rest =>
    rw [hlist, List.pairwise_cons] at hsorted
    simp only [List.take_succ_cons, List.take_zero, List.any_cons, List.any_nil, Bool.or_false,
      decide_eq_true_eq]
    constructor
    · intro h
      exact ⟨newest, List.mem_cons_self, h⟩
    · rintro ⟨row, hrow, hlater⟩
      rcases List.mem_cons.mp hrow with rfl | hrest
      · exact hlater
      · have hnewer := hsorted.1 row hrest
        unfold NewerFirst at hnewer
        omega

/-- What `basicAuthClearedSince` answers. -/
def Cleared (s : Tables) (event : AuditLogRecord) (c : ConsumerId) : Prop :=
  (∃ row ∈ s.auditList (reconciledSince c event.created_at), event.created_at < row.created_at) ∨
  ∃ row ∈ s.auditList (revokedSince c event.created_at), event.created_at < row.created_at

/-- `row` records that a whole type of the consumer was emptied. -/
structure WholeTypeRevoke (c : ConsumerId) (row : AuditLogRecord) : Prop where
  action : row.action = .credentialRevoke
  consumer : row.details.consumer_id = some c
  scope : row.details.scope = some "whole-type"

/-- An append that was not taken back, by an owner who still exists, with no
later event of its consumer that emptied HTTP Basic. -/
structure Abandoned (s : Tables) (event : AuditLogRecord) (c : ConsumerId) : Prop where
  recorded : event ∈ s.audit_logs
  action : event.action = .credentialAppendRollback
  type : event.details.credential_type = some .basicauth
  kept : event.details.withdrawn = some false
  consumer : event.details.consumer_id = some c
  owned : ∃ owner, attributedTo (s.consumers c) event = some owner ∧ (s.users owner).isNone = false
  unreconciled : ∀ row ∈ s.audit_logs, row.action = .credentialReconcile →
    row.details.consumer_id = some c → row.details.credential_type = some .basicauth →
      row.created_at ≤ event.created_at
  unrevoked : ∀ row ∈ s.audit_logs, WholeTypeRevoke c row →
    row.details.credential_type = some .basicauth → row.created_at ≤ event.created_at

/-- A later whole-type revocation of another type on the same consumer. -/
def Overlooked (s : Tables) (event : AuditLogRecord) (c : ConsumerId) : Prop :=
  ∃ row ∈ s.audit_logs, WholeTypeRevoke c row ∧ row.details.credential_type ≠ some .basicauth ∧
    event.created_at < row.created_at

/-- A live row of the consumer is the one the event names, or a placeholder of
the consumer was written for the event. -/
def Backed (s : Tables) (event : AuditLogRecord) (c : ConsumerId) : Prop :=
  (∃ row ∈ s.credentials, event.details.stranded_credential_id = some row.id ∧
    row.ferrum_consumer_id = c ∧ row.status.isLive = true) ∨
  ∃ row ∈ s.credentials, row.fingerprint = .legacyUnconfirmed event.id ∧ row.ferrum_consumer_id = c

theorem accepts_iff :
    filter.accepts row = true ↔ row.action = filter.action ∧
      filter.details.matches row.details = true ∧ filter.since ≤ row.created_at := by
  simp [AuditLogFilter.accepts, and_assoc]

theorem accepts_reconciledSince {since : ℕ} :
    (reconciledSince c since).accepts row = true ↔ row.action = .credentialReconcile ∧
      row.details.consumer_id = some c ∧ row.details.credential_type = some .basicauth ∧
      since ≤ row.created_at := by
  rw [accepts_iff]
  simp [reconciledSince, Details.matches, given, and_assoc, and_left_comm]

theorem accepts_revokedSince {since : ℕ} :
    (revokedSince c since).accepts row = true ↔ WholeTypeRevoke c row ∧ since ≤ row.created_at := by
  have hwhole : WholeTypeRevoke c row ↔ row.action = .credentialRevoke ∧
      row.details.consumer_id = some c ∧ row.details.scope = some "whole-type" :=
    ⟨fun h => ⟨h.action, h.consumer, h.scope⟩, fun h => ⟨h.1, h.2.1, h.2.2⟩⟩
  rw [accepts_iff, hwhole]
  simp [revokedSince, Details.matches, given, and_assoc]

theorem accepts_legacyAppends :
    legacyAppends.accepts row = true ↔ row.action = .credentialAppendRollback ∧
      row.details.credential_type = some .basicauth ∧ row.details.withdrawn = some false := by
  rw [accepts_iff]
  simp [legacyAppends, Details.matches, given]

/-- Of an event still open, only a revocation of another type hides it. -/
theorem cleared_iff_overlooked (h : Abandoned s event c) :
    Cleared s event c ↔ Overlooked s event c := by
  constructor
  · rintro (⟨row, hrow, hlater⟩ | ⟨row, hrow, hlater⟩)
    · obtain ⟨hmem, haccepts⟩ := mem_auditList.mp hrow
      obtain ⟨haction, hconsumer, htype, -⟩ := accepts_reconciledSince.mp haccepts
      have hle := h.unreconciled row hmem haction hconsumer htype
      omega
    · obtain ⟨hmem, haccepts⟩ := mem_auditList.mp hrow
      have hwhole := (accepts_revokedSince.mp haccepts).1
      refine ⟨row, hmem, hwhole, ?_, hlater⟩
      intro htype
      have hle := h.unrevoked row hmem hwhole htype
      omega
  · rintro ⟨row, hmem, hwhole, -, hlater⟩
    exact .inr ⟨row, mem_auditList.mpr ⟨hmem, accepts_revokedSince.mpr ⟨hwhole, hlater.le⟩⟩, hlater⟩

theorem Abandoned.listed (h : Abandoned s event c) : event ∈ s.auditList legacyAppends :=
  mem_auditList.mpr ⟨h.recorded, accepts_legacyAppends.mpr ⟨h.action, h.type, h.kept⟩⟩

/-! ## What a scan leaves unchanged -/

/-- Keys and indexes of the tables, and what the writers of earlier releases
kept: an event that names a row was recorded for a row of its consumer. -/
structure WellFormed (s : Tables) : Prop where
  events_distinct : (s.audit_logs.map (·.id)).Nodup
  fingerprints_distinct : (s.credentials.map (·.fingerprint)).Nodup
  event_fresh : ∀ event ∈ s.audit_logs, event.id < s.fresh
  stranded_fresh : ∀ event ∈ s.audit_logs, ∀ id,
    event.details.stranded_credential_id = some id → id < s.fresh
  stranded_here : ∀ event ∈ s.audit_logs, ∀ row ∈ s.credentials,
    event.details.stranded_credential_id = some row.id →
      event.details.consumer_id = some row.ferrum_consumer_id
  placeholder_here : ∀ event ∈ s.audit_logs, event.action = .credentialAppendRollback →
    ∀ row ∈ s.credentials, row.fingerprint = .legacyUnconfirmed event.id →
      event.details.consumer_id = some row.ferrum_consumer_id

theorem WellFormed.event_eq (h : WellFormed s) {event event' : AuditLogRecord}
    (hevent : event ∈ s.audit_logs) (hevent' : event' ∈ s.audit_logs) (hid : event.id = event'.id) :
    event = event' :=
  List.inj_on_of_nodup_map h.events_distinct hevent hevent' hid

/-- A row the scan added, and the event it stands for. -/
structure Placed (s : Tables) (row : CredentialRecord) (event : AuditLogRecord) : Prop where
  fresh : s.fresh ≤ row.id
  recorded : event ∈ s.audit_logs
  action : event.action = .credentialAppendRollback
  fingerprint : row.fingerprint = .legacyUnconfirmed event.id
  uncleared : ¬Cleared s event row.ferrum_consumer_id
  consumer : event.details.consumer_id = some row.ferrum_consumer_id

/-- Once the scan is past it, an event is backed, or it was taken for cleared. -/
def Settled (s : Tables) (event : AuditLogRecord) : Prop :=
  ∀ c, Abandoned s event c → ¬Overlooked s event c → Backed s event c

def AllSettled (s : Tables) : Prop := ∀ event ∈ s.auditList legacyAppends, Settled s event

/-- One step of the scan: rows are only added, and every event but its own
records stays as it was. -/
structure Progress (s s' : Tables) : Prop where
  users : s'.users = s.users
  consumers : s'.consumers = s.consumers
  events : ∀ row, row.action ≠ .credentialLegacyPlaceholder →
    (row ∈ s'.audit_logs ↔ row ∈ s.audit_logs)
  lists : ∀ filter, filter.action ≠ .credentialLegacyPlaceholder →
    s'.auditList filter = s.auditList filter
  kept : ∀ row ∈ s.credentials, row ∈ s'.credentials
  added : ∀ row ∈ s'.credentials, row ∈ s.credentials ∨ ∃ event, Placed s row event
  fresh : s.fresh ≤ s'.fresh
  wellFormed : WellFormed s → WellFormed s'

theorem Progress.refl (s : Tables) : Progress s s where
  users := rfl
  consumers := rfl
  events := fun _ _ => Iff.rfl
  lists := fun _ _ => rfl
  kept := fun _ h => h
  added := fun _ h => .inl h
  fresh := le_rfl
  wellFormed := id

theorem Progress.cleared (h : Progress s s') : Cleared s' event c ↔ Cleared s event c := by
  have hreconciled := h.lists (reconciledSince c event.created_at) (by simp [reconciledSince])
  have hrevoked := h.lists (revokedSince c event.created_at) (by simp [revokedSince])
  unfold Cleared
  rw [hreconciled, hrevoked]

theorem Progress.listed (h : Progress s s') :
    s'.auditList legacyAppends = s.auditList legacyAppends :=
  h.lists legacyAppends (by decide)

theorem Progress.abandoned (h : Progress s s') : Abandoned s' event c ↔ Abandoned s event c := by
  have hevents : ∀ {action : AuditAction} {row : AuditLogRecord}, row.action = action →
      action ≠ .credentialLegacyPlaceholder → (row ∈ s'.audit_logs ↔ row ∈ s.audit_logs) := by
    intro action row haction hne
    exact h.events row (haction ▸ hne)
  constructor
  · intro ha
    refine ⟨(hevents ha.action (by decide)).mp ha.recorded, ha.action, ha.type, ha.kept, ha.consumer,
      ?_, ?_, ?_⟩
    · rw [← h.consumers, ← h.users]
      exact ha.owned
    · intro row hrow haction
      exact ha.unreconciled row ((hevents haction (by decide)).mpr hrow) haction
    · intro row hrow hwhole
      exact ha.unrevoked row ((hevents hwhole.action (by decide)).mpr hrow) hwhole
  · intro ha
    refine ⟨(hevents ha.action (by decide)).mpr ha.recorded, ha.action, ha.type, ha.kept, ha.consumer,
      ?_, ?_, ?_⟩
    · rw [h.consumers, h.users]
      exact ha.owned
    · intro row hrow haction
      exact ha.unreconciled row ((hevents haction (by decide)).mp hrow) haction
    · intro row hrow hwhole
      exact ha.unrevoked row ((hevents hwhole.action (by decide)).mp hrow) hwhole

theorem Progress.overlooked (h : Progress s s') : Overlooked s' event c ↔ Overlooked s event c := by
  constructor
  · rintro ⟨row, hrow, hwhole, hrest⟩
    exact ⟨row, (h.events row (by rw [hwhole.action]; decide)).mp hrow, hwhole, hrest⟩
  · rintro ⟨row, hrow, hwhole, hrest⟩
    exact ⟨row, (h.events row (by rw [hwhole.action]; decide)).mpr hrow, hwhole, hrest⟩

theorem Progress.backed (h : Progress s s') (hb : Backed s event c) : Backed s' event c := by
  rcases hb with ⟨row, hrow, hlive⟩ | ⟨row, hrow, hplaced⟩
  · exact .inl ⟨row, h.kept row hrow, hlive⟩
  · exact .inr ⟨row, h.kept row hrow, hplaced⟩

theorem Progress.settled (h : Progress s s') (hs : Settled s event) : Settled s' event := by
  intro c ha ho
  exact h.backed (hs c (h.abandoned.mp ha) fun hover => ho (h.overlooked.mpr hover))

theorem Progress.allSettled (h : Progress s s') (hs : AllSettled s) : AllSettled s' := by
  intro event hevent
  rw [h.listed] at hevent
  exact h.settled (hs event hevent)

theorem Progress.placed (h : Progress s s') {row : CredentialRecord} (hp : Placed s' row event) :
    Placed s row event where
  fresh := h.fresh.trans hp.fresh
  recorded := (h.events event (by rw [hp.action]; decide)).mp hp.recorded
  action := hp.action
  fingerprint := hp.fingerprint
  uncleared := fun hc => hp.uncleared (h.cleared.mpr hc)
  consumer := hp.consumer

theorem Progress.trans (h : Progress s s') (h' : Progress s' s'') : Progress s s'' where
  users := h'.users.trans h.users
  consumers := h'.consumers.trans h.consumers
  events := fun row hrow => (h'.events row hrow).trans (h.events row hrow)
  lists := fun filter hfilter => (h'.lists filter hfilter).trans (h.lists filter hfilter)
  kept := fun row hrow => h'.kept row (h.kept row hrow)
  added := by
    intro row hrow
    rcases h'.added row hrow with hold | ⟨event, hplaced⟩
    · exact h.added row hold
    · exact .inr ⟨event, h.placed hplaced⟩
  fresh := h.fresh.trans h'.fresh
  wellFormed := fun hwf => h'.wellFormed (h.wellFormed hwf)

/-- A step that may also record the scan, once every event is settled. -/
structure Advances (s s' : Tables) : Prop extends Progress s s' where
  scanned : s'.scanned = true → s.scanned = true ∨ AllSettled s'

theorem Advances.refl (s : Tables) : Advances s s := ⟨.refl s, .inl⟩

theorem Advances.trans (h : Advances s s') (h' : Advances s' s'') : Advances s s'' where
  toProgress := h.toProgress.trans h'.toProgress
  scanned := by
    intro hscanned
    rcases h'.scanned hscanned with hscanned | hsettled
    · rcases h.scanned hscanned with hscanned | hsettled
      · exact .inl hscanned
      · exact .inr (h'.allSettled hsettled)
    · exact .inr hsettled

/-- Writes outside the two tables. -/
theorem Progress.of_same {scanned : Bool} {state : ScanState} :
    Progress s { s with scanned := scanned, legacyScanState := state } where
  users := rfl
  consumers := rfl
  events := fun _ _ => Iff.rfl
  lists := fun _ _ => rfl
  kept := fun _ h => h
  added := fun _ h => .inl h
  fresh := le_rfl
  wellFormed := fun h => ⟨h.events_distinct, h.fingerprints_distinct, h.event_fresh,
    h.stranded_fresh, h.stranded_here, h.placeholder_here⟩

/-! ## What each call does -/

/-- The scan alone, whatever its calls answer: a result satisfies `Q`. -/
abbrev Scans {α : Type} (p : ScanService α) (Q : α → Tables → Prop) (s : Tables) : Prop :=
  wpe Eq Advances p Q (fun _ _ => True) s

theorem scans_read {α : Type} {f : Tables → α} {Q : α → Tables → Prop} (h : Q (f s) s) :
    Scans (storeRead f) Q s := by
  apply wpe_storeRead
  rintro s₁ rfl
  exact ⟨.refl s, h, trivial⟩

theorem scans_bind {α β : Type} {p : ScanService β} {g : β → ScanService α} {Q : α → Tables → Prop}
    (h : Scans p (fun b => Scans (g b) Q) s) : Scans (p >>= g) Q s :=
  (wpe_bind p g).mpr h

theorem scans_holdKey (h : Q () s) : Scans holdKey Q s := by
  rw [Scans, holdKey, wpe_atomic]
  rintro s₁ rfl o r s' hf
  cases o with
  | ok =>
    cases hf
    exact ⟨.refl s, h⟩
  | refused st | lost st | down =>
    cases hf
    exact ⟨.refl s, trivial⟩

theorem scans_committing {f : Tables → Except NexusError Tables}
    (h : ∀ s', f s = .ok s' → Advances s s' ∧ Q () s') : Scans (committing f) Q s := by
  rw [Scans, committing, wpe_atomic]
  rintro s₁ rfl o r s' hf
  split at hf
  · cases hf
    exact ⟨.refl s, trivial⟩
  · cases hf
    exact ⟨.refl s, trivial⟩
  · rename_i next hnext
    cases hf
    exact h _ hnext
  · rename_i next _ hnext
    cases hf
    exact ⟨(h _ hnext).1, trivial⟩

theorem scans_basicAuthClearedSince {Q : Bool → Tables → Prop} (hyes : Cleared s event c → Q true s)
    (hno : ¬Cleared s event c → Q false s) :
    Scans (basicAuthClearedSince c event.created_at) Q s := by
  apply scans_bind
  apply scans_read
  split
  · rename_i h
    exact hyes (.inl (newest_later.mp h))
  · rename_i hreconciled
    apply scans_bind
    apply scans_read
    cases hrevoked : ((s.auditList (revokedSince c event.created_at)).drop 0 |>.take 1).any
        fun row => event.created_at < row.created_at with
    | true => exact hyes (.inr (newest_later.mp hrevoked))
    | false =>
      apply hno
      rintro (h | h)
      · exact hreconciled (newest_later.mpr h)
      · exact absurd (newest_later.mpr h) (Bool.not_eq_true _ ▸ hrevoked)

/-- The tables once the placeholder of an event is written. -/
def placed (s : Tables) (c : ConsumerId) (owner : ℕ) (mapping : Option ConsumerMapping)
    (event : AuditLogRecord) : Tables :=
  let row := placeholderRow s.fresh owner mapping c event
  { s with
    credentials := s.credentials ++ [row],
    audit_logs := s.audit_logs ++ [placeholderEvent (s.fresh + 1) owner s.now row event],
    fresh := s.fresh + 2 }

section Placing

variable {owner : ℕ} {mapping : Option ConsumerMapping}

theorem mem_placed_audits {row : AuditLogRecord} :
    row ∈ (placed s c owner mapping event).audit_logs ↔ row ∈ s.audit_logs ∨
      row = placeholderEvent (s.fresh + 1) owner s.now (placeholderRow s.fresh owner mapping c event)
        event := by
  simp [placed]

theorem mem_placed_rows {row : CredentialRecord} :
    row ∈ (placed s c owner mapping event).credentials ↔ row ∈ s.credentials ∨
      row = placeholderRow s.fresh owner mapping c event := by
  simp [placed]

theorem wellFormed_placed (h : WellFormed s) (hevent : event ∈ s.audit_logs)
    (hconsumer : event.details.consumer_id = some c)
    (hnew : ∀ row ∈ s.credentials, row.fingerprint ≠ .legacyUnconfirmed event.id) :
    WellFormed (placed s c owner mapping event) where
  events_distinct := by
    simp only [placed, List.map_append, List.map_cons, List.map_nil]
    apply h.events_distinct.append (List.nodup_singleton _)
    intro id hid hid'
    obtain ⟨row, hrow, rfl⟩ := List.mem_map.mp hid
    have hlt := h.event_fresh row hrow
    have heq : row.id = s.fresh + 1 := List.mem_singleton.mp hid'
    omega
  fingerprints_distinct := by
    simp only [placed, List.map_append, List.map_cons, List.map_nil]
    apply h.fingerprints_distinct.append (List.nodup_singleton _)
    intro fingerprint hold hadded
    obtain ⟨row, hrow, rfl⟩ := List.mem_map.mp hold
    exact hnew row hrow (List.mem_singleton.mp hadded)
  event_fresh := by
    intro row hrow
    show row.id < s.fresh + 2
    rcases mem_placed_audits.mp hrow with hold | rfl
    · have hlt := h.event_fresh row hold
      omega
    · show s.fresh + 1 < s.fresh + 2
      omega
  stranded_fresh := by
    intro row hrow id hid
    show id < s.fresh + 2
    rcases mem_placed_audits.mp hrow with hold | rfl
    · have hlt := h.stranded_fresh row hold id hid
      omega
    · cases hid
  stranded_here := by
    intro row hrow held hheld hid
    rcases mem_placed_audits.mp hrow with hold | rfl
    · rcases mem_placed_rows.mp hheld with hheld | rfl
      · exact h.stranded_here row hold held hheld hid
      · have hlt := h.stranded_fresh row hold _ hid
        exact absurd hlt (lt_irrefl _)
    · cases hid
  placeholder_here := by
    intro row hrow haction held hheld hfingerprint
    rcases mem_placed_audits.mp hrow with hold | rfl
    · rcases mem_placed_rows.mp hheld with hheld | rfl
      · exact h.placeholder_here row hold haction held hheld hfingerprint
      · have hid : event.id = row.id := Fingerprint.legacyUnconfirmed.inj hfingerprint
        obtain rfl := h.event_eq hevent hold hid
        exact hconsumer
    · cases haction

theorem progress_placed (hevent : event ∈ s.audit_logs)
    (haction : event.action = .credentialAppendRollback)
    (hconsumer : event.details.consumer_id = some c) (hcleared : ¬Cleared s event c)
    (hnew : ∀ row ∈ s.credentials, row.fingerprint ≠ .legacyUnconfirmed event.id) :
    Progress s (placed s c owner mapping event) where
  users := rfl
  consumers := rfl
  events := by
    intro row hrow
    rw [mem_placed_audits, or_iff_left]
    rintro rfl
    exact hrow rfl
  lists := by
    intro filter hfilter
    have hskip : filter.accepts (placeholderEvent (s.fresh + 1) owner s.now
        (placeholderRow s.fresh owner mapping c event) event) = false := by
      rw [Bool.eq_false_iff]
      intro haccepts
      exact hfilter (accepts_iff.mp haccepts).1.symm
    rw [Tables.auditList, Tables.auditList, placed, List.filter_append, List.filter_cons, hskip]
    simp
  kept := fun row hrow => mem_placed_rows.mpr (.inl hrow)
  added := by
    intro row hrow
    rcases mem_placed_rows.mp hrow with hold | rfl
    · exact .inl hold
    · exact .inr ⟨event, le_rfl, hevent, haction, rfl, hcleared, hconsumer⟩
  fresh := Nat.le_add_right _ _
  wellFormed := fun h => wellFormed_placed h hevent hconsumer hnew

end Placing

theorem scans_writePlaceholder {owner : ℕ} {mapping : Option ConsumerMapping}
    (hevent : event ∈ s.audit_logs) (haction : event.action = .credentialAppendRollback)
    (hconsumer : event.details.consumer_id = some c) (hcleared : ¬Cleared s event c) :
    Scans (writePlaceholder c owner mapping event)
      (fun _ s' => Progress s s' ∧ Backed s' event c) s := by
  apply scans_committing
  intro s' hs'
  dsimp only at hs'
  split at hs'
  · cases hs'
  · rename_i hunique
    have hnew : ∀ row ∈ s.credentials, row.fingerprint ≠ .legacyUnconfirmed event.id := by
      simpa [placeholderRow] using hunique
    have hp : Progress s (placed s c owner mapping event) :=
      progress_placed hevent haction hconsumer hcleared hnew
    cases hs'
    exact ⟨⟨hp, .inl⟩, hp, .inr ⟨_, mem_placed_rows.mpr (.inr rfl), rfl, rfl⟩⟩

/-- The section under the key leaves the event backed, cleared or ownerless. -/
theorem scans_placeUnderKey (hwf : WellFormed s) (hevent : event ∈ s.audit_logs)
    (haction : event.action = .credentialAppendRollback)
    (hconsumer : event.details.consumer_id = some c) :
    Scans (placeUnderKey event c) (fun _ s' => Progress s s' ∧ Settled s' event) s := by
  have hself : ∀ {c'}, Abandoned s event c' → c' = c := by
    intro c' h
    exact Option.some.inj (h.consumer.symm.trans hconsumer)
  apply scans_bind
  apply scans_read
  split
  · rename_i hfound
    refine ⟨.refl s, fun c' h _ => ?_⟩
    obtain ⟨row, hrow⟩ := Option.isSome_iff_exists.mp hfound
    have hmem := List.mem_of_find?_eq_some hrow
    have hfingerprint : row.fingerprint = .legacyUnconfirmed event.id := by
      simpa using List.find?_some hrow
    have hhere := hwf.placeholder_here event hevent haction row hmem hfingerprint
    exact .inr ⟨row, hmem, hfingerprint, Option.some.inj (hhere.symm.trans h.consumer)⟩
  · apply scans_bind
    have hstranded : Scans (findStranded event) (fun found s' => s' = s ∧
        ∀ row, found = some row → row ∈ s.credentials ∧
          event.details.stranded_credential_id = some row.id) s := by
      unfold findStranded
      split
      · exact ⟨rfl, fun row hrow => by cases hrow⟩
      · rename_i id hid
        apply scans_read
        refine ⟨rfl, fun row hrow => ⟨List.mem_of_find?_eq_some hrow, ?_⟩⟩
        have hrowId : row.id = id := by simpa using List.find?_some hrow
        rw [hid, hrowId]
    refine wpe_mono hstranded ?_ fun _ _ h => h
    rintro found s' ⟨rfl, hfound⟩
    split
    · rename_i hlive
      refine ⟨.refl _, fun c' h _ => ?_⟩
      cases found with
      | none => cases hlive
      | some row =>
        obtain ⟨hmem, hid⟩ := hfound row rfl
        have hhere := hwf.stranded_here event hevent row hmem hid
        exact .inl ⟨row, hmem, hid, Option.some.inj (hhere.symm.trans h.consumer), hlive⟩
    · apply scans_bind
      apply scans_basicAuthClearedSince
      · intro hcleared
        refine ⟨.refl _, fun c' h hover => ?_⟩
        obtain rfl := hself h
        exact absurd ((cleared_iff_overlooked h).mp hcleared) hover
      · intro hcleared
        apply scans_bind
        apply scans_read
        cases howner : attributedTo (s'.consumers c) event with
        | none =>
          refine ⟨.refl _, fun c' h _ => ?_⟩
          obtain rfl := hself h
          obtain ⟨owner, hattributed, -⟩ := h.owned
          rw [howner] at hattributed
          cases hattributed
        | some owner =>
          apply scans_bind
          apply scans_read
          split
          · rename_i hgone
            refine ⟨.refl _, fun c' h _ => ?_⟩
            obtain rfl := hself h
            obtain ⟨owner', hattributed, hexists⟩ := h.owned
            rw [howner, Option.some.injEq] at hattributed
            rw [hattributed, hexists] at hgone
            cases hgone
          · refine wpe_mono (scans_writePlaceholder hevent haction hconsumer hcleared) ?_
              fun _ _ h => h
            rintro - s'' ⟨hp, hbacked⟩
            refine ⟨hp, fun c' h _ => ?_⟩
            obtain rfl := hself (hp.abandoned.mp h)
            exact hbacked

theorem scans_placeLegacyPlaceholder (hwf : WellFormed s) (hevent : event ∈ s.auditList legacyAppends) :
    Scans (placeLegacyPlaceholder event) (fun _ s' => Progress s s' ∧ Settled s' event) s := by
  obtain ⟨hmem, haccepts⟩ := mem_auditList.mp hevent
  have haction := (accepts_legacyAppends.mp haccepts).1
  unfold placeLegacyPlaceholder
  split
  · rename_i hnone
    refine ⟨.refl s, fun c h _ => ?_⟩
    rw [h.consumer] at hnone
    cases hnone
  · rename_i c hconsumer
    apply scans_bind
    apply scans_holdKey
    apply scans_bind
    refine wpe_mono (scans_placeUnderKey hwf hmem haction hconsumer) ?_ fun _ _ h => h
    intro _ s' h
    exact scans_holdKey h

/-! ## Whole scans -/

theorem scans_placeAll {events : List AuditLogRecord} (hwf : WellFormed s)
    (hevents : ∀ event ∈ events, event ∈ s.auditList legacyAppends) :
    Scans (placeAll events) (fun _ s' => Progress s s' ∧ ∀ event ∈ events, Settled s' event) s := by
  induction events generalizing s with
  | nil => exact ⟨.refl s, fun _ h => absurd h List.not_mem_nil⟩
  | cons event rest ih =>
    obtain ⟨hhead, hrest⟩ := List.forall_mem_cons.mp hevents
    apply scans_bind
    refine wpe_mono (scans_placeLegacyPlaceholder hwf hhead) ?_ fun _ _ h => h
    rintro - s₁ ⟨hp, hsettled⟩
    have hlisted : ∀ event ∈ rest, event ∈ s₁.auditList legacyAppends := by
      rw [hp.listed]
      exact hrest
    refine wpe_mono (ih (hp.wellFormed hwf) hlisted) ?_ fun _ _ h => h
    rintro - s₂ ⟨hp', hall⟩
    exact ⟨hp.trans hp', List.forall_mem_cons.mpr ⟨hp'.settled hsettled, hall⟩⟩

/-- The events before the offset are behind the scan, which ends after all. -/
theorem scans_pages {fuel offset : ℕ} (hwf : WellFormed s)
    (hbehind : ∀ event ∈ (s.auditList legacyAppends).take offset, Settled s event) :
    Scans (scanLegacyBasicAuthAppends fuel offset) (fun _ s' => Progress s s' ∧ AllSettled s') s := by
  induction fuel generalizing s offset with
  | zero =>
    rintro s₁ rfl o r s' hf
    cases hf
  | succ fuel ih =>
    apply scans_bind
    apply scans_read
    set page := ((s.auditList legacyAppends).drop offset).take MAX_PAGE_SIZE with hpage
    have hpageListed : ∀ event ∈ page, event ∈ s.auditList legacyAppends := fun event h =>
      List.mem_of_mem_drop (List.mem_of_mem_take h)
    apply scans_bind
    refine wpe_mono (scans_placeAll hwf hpageListed) ?_ fun _ _ h => h
    rintro - s₁ ⟨hp, hsettled⟩
    have hahead : ∀ event ∈ (s.auditList legacyAppends).take (offset + page.length),
        Settled s₁ event := by
      have htake : page = ((s.auditList legacyAppends).drop offset).take page.length := by
        rw [hpage, List.length_take, List.take_eq_take_min]
      intro event hevent
      rw [List.take_add, List.mem_append, ← htake] at hevent
      rcases hevent with hold | hnew
      · exact hp.settled (hbehind event hold)
      · exact hsettled event hnew
    split
    · rename_i hlast
      refine ⟨hp, fun event hevent => hahead event ?_⟩
      rw [hp.listed] at hevent
      have hlength : page.length = min MAX_PAGE_SIZE ((s.auditList legacyAppends).length - offset) := by
        rw [hpage, List.length_take, List.length_drop]
      rw [List.take_of_length_le (by omega)]
      exact hevent
    · rw [← hp.listed] at hahead
      refine wpe_mono (ih (hp.wellFormed hwf) hahead) ?_ fun _ _ h => h
      rintro - s₂ ⟨hp', hall⟩
      exact ⟨hp.trans hp', hall⟩

theorem scans_reportState {state : ScanState}
    (h : Progress s { s with legacyScanState := state } → Q () { s with legacyScanState := state }) :
    Scans (reportState state) Q s := by
  rw [Scans, reportState, wpe_atomic]
  rintro s₁ rfl o r s' hf
  cases hf
  have hp : Progress s { s with legacyScanState := state } := .of_same
  exact ⟨⟨hp, .inl⟩, h hp⟩

theorem scans_start {fuel : ℕ} (hwf : WellFormed s) (hdone : s.scanned = true → AllSettled s) :
    Scans (initializeLegacyBasicAuthPositions fuel) (fun _ s' => Progress s s' ∧ AllSettled s') s := by
  have hscan : Scans (do
      if ← storeRead (·.scanned) then reportState .completed
      else do
        scanLegacyBasicAuthAppends fuel 0
        committing fun s => .ok { s with scanned := true }
        reportState .completed) (fun _ s' => Progress s s' ∧ AllSettled s') s := by
    apply scans_bind
    apply scans_read
    split
    · rename_i hscanned
      exact scans_reportState fun hp => ⟨hp, hp.allSettled (hdone hscanned)⟩
    · apply scans_bind
      have hnone : ∀ event ∈ (s.auditList legacyAppends).take 0, Settled s event := by simp
      refine wpe_mono (scans_pages hwf hnone) ?_ fun _ _ h => h
      rintro - s₁ ⟨hp, hall⟩
      apply scans_bind
      apply scans_committing
      intro s₂ hs₂
      cases hs₂
      have hrecord : Progress s₁ { s₁ with scanned := true } := .of_same
      refine ⟨⟨hrecord, fun _ => .inr (hrecord.allSettled hall)⟩, ?_⟩
      refine scans_reportState fun hp' => ⟨(hp.trans hrecord).trans hp', ?_⟩
      exact hp'.allSettled (hrecord.allSettled hall)
  refine (wpe_tryCatch _ _).mpr (wpe_mono hscan (fun _ _ h => h) ?_)
  intro error s' _
  apply scans_bind
  exact scans_reportState fun _ => trivial

/-- A portal before the scan is recorded, and after any number of starts since,
each of which got as far as it did. -/
inductive Started : Tables → Prop
  | initial {s : Tables} (hwf : WellFormed s) (hnone : s.scanned = false) : Started s
  | attempt {s s' : Tables} {fuel : ℕ} {choices : List Outcome}
      {rest : Program Tables Outcome (Except NexusError Unit)} (h : Started s)
      (hrun : (initializeLegacyBasicAuthPositions fuel).run.advance choices s = some (rest, s')) :
      Started s'

theorem Started.invariant (h : Started s) :
    WellFormed s ∧ (s.scanned = true → AllSettled s) := by
  induction h with
  | initial hwf hnone =>
    refine ⟨hwf, fun hscanned => ?_⟩
    rw [hnone] at hscanned
    cases hscanned
  | attempt _ hrun ih =>
    obtain ⟨hwf, hdone⟩ := ih
    have hstep := wp_advance Advances.refl (fun _ _ _ => Advances.trans) (scans_start hwf hdone) hrun
    refine ⟨hstep.wellFormed hwf, fun hscanned => ?_⟩
    rcases hstep.scanned hscanned with hscanned | hsettled
    · exact hstep.allSettled (hdone hscanned)
    · exact hsettled

/-- A scan that ends leaves every open event backed exactly where no revocation
of another type hides one that was not backed before; and no event has two
placeholders. -/
theorem legacy_scan_backs_iff {fuel : ℕ} {choices : List Outcome} (hs : Started s)
    (hrun : (initializeLegacyBasicAuthPositions fuel).run.exec choices s = some (.ok (), s')) :
    ((∀ event c, Abandoned s' event c → Backed s' event c) ∧
      ∀ event ∈ s'.audit_logs, (s'.credentials.filter fun row =>
        row.fingerprint = .legacyUnconfirmed event.id).length ≤ 1) ↔
    ∀ event c, Abandoned s event c → Overlooked s event c → Backed s event c := by
  obtain ⟨hwf, hdone⟩ := hs.invariant
  have hscan : Scans (initializeLegacyBasicAuthPositions fuel)
      (fun _ s' => Progress s s' ∧ AllSettled s') s := scans_start hwf hdone
  rw [Scans, wpe] at hscan
  obtain ⟨hp, hall⟩ := wp_exec (fun _ => rfl) hscan hrun
  have hwf' := hp.wellFormed hwf
  constructor
  · rintro ⟨hbacked, -⟩ event c ha hover
    rcases hbacked event c (hp.abandoned.mpr ha) with ⟨row, hrow, hid, hrest⟩ | ⟨row, hrow, hfor, hhere⟩
    · rcases hp.added row hrow with hold | ⟨event', hplaced⟩
      · exact .inl ⟨row, hold, hid, hrest⟩
      · have hlt := hwf.stranded_fresh event ha.recorded row.id hid
        have hle := hplaced.fresh
        omega
    · rcases hp.added row hrow with hold | ⟨event', hplaced⟩
      · exact .inr ⟨row, hold, hfor, hhere⟩
      · have hid : event.id = event'.id :=
          Fingerprint.legacyUnconfirmed.inj (hfor.symm.trans hplaced.fingerprint)
        obtain rfl := hwf.event_eq ha.recorded hplaced.recorded hid
        rw [← hhere] at ha hover
        exact absurd ((cleared_iff_overlooked ha).mpr hover) hplaced.uncleared
  · intro hcondition
    refine ⟨fun event c ha => ?_, fun event _ => ?_⟩
    · by_cases hover : Overlooked s event c
      · exact hp.backed (hcondition event c (hp.abandoned.mp ha) hover)
      · exact hall event ha.listed c ha fun h => hover (hp.overlooked.mp h)
    · have hcount := List.nodup_iff_count_le_one.mp hwf'.fingerprints_distinct
        (.legacyUnconfirmed event.id)
      rw [List.count, List.countP_map, List.countP_eq_length_filter] at hcount
      exact hcount

/-! ## A revocation of another type -/

section Example

def legacyConsumer : ConsumerId := .assigned 0

def legacyAppend : AuditLogRecord :=
  { id := 0, actor_user_id := some 1, action := .credentialAppendRollback,
    target := .consumer legacyConsumer,
    details :=
      { credential_type := some .basicauth, consumer_id := some legacyConsumer,
        withdrawn := some false, owner_user_id := some 1, last4 := some "lgcy" },
    created_at := 5 }

/-- An API key of the consumer, which a drift let be revoked with its whole type. -/
def revokedKey : CredentialRecord :=
  { id := 1, user_id := 1, application_id := none, ferrum_consumer_id := legacyConsumer,
    credential_type := .keyauth, fingerprint := .ofSecret 0, last4 := "9f2c", label := none,
    status := .revoked, rotated_from_id := none }

def upgraded (later : List AuditLogRecord) : Tables where
  audit_logs := legacyAppend :: later
  credentials := [revokedKey]
  users id := if id = 1 then some ⟨1, .client, .active⟩ else none
  consumers _ := none
  scanned := false
  legacyScanState := .pending
  fresh := 3
  now := 9

def keyRevocation : AuditLogRecord := revocationEvent 2 1 7 revokedKey true

theorem upgraded_wellFormed {later : List AuditLogRecord} (h : later = [] ∨ later = [keyRevocation]) :
    WellFormed (upgraded later) := by
  rcases h with rfl | rfl
  all_goals
    constructor
    all_goals simp [upgraded, legacyAppend, keyRevocation, revocationEvent, revokedKey]

/-- With no later event the append is held. -/
theorem legacy_scan_backs_iff_held : ∃ s', Started (upgraded []) ∧
    (initializeLegacyBasicAuthPositions 1).run.exec (List.replicate 12 .ok) (upgraded []) =
      some (.ok (), s') ∧
    ((∀ event c, Abandoned s' event c → Backed s' event c) ∧
      ∀ event ∈ s'.audit_logs, (s'.credentials.filter fun row =>
        row.fingerprint = .legacyUnconfirmed event.id).length ≤ 1) := by
  have hstarted : Started (upgraded []) := .initial (upgraded_wellFormed (.inl rfl)) rfl
  have hrun : (initializeLegacyBasicAuthPositions 1).run.exec (List.replicate 12 .ok) (upgraded []) =
      some (.ok (), _) := rfl
  refine ⟨_, hstarted, hrun, (legacy_scan_backs_iff hstarted hrun).mpr ?_⟩
  rintro event c - ⟨row, hrow, hwhole, -⟩
  obtain rfl : row = legacyAppend := by simpa [upgraded] using hrow
  exact absurd hwhole.action (by decide)

/-- A later revocation of the API keys drops it. -/
theorem key_revocation_drops_append : ∃ s', Started (upgraded [keyRevocation]) ∧
    (initializeLegacyBasicAuthPositions 1).run.exec (List.replicate 9 .ok) (upgraded [keyRevocation]) =
      some (.ok (), s') ∧
    ∃ event c, Abandoned s' event c ∧ ¬Backed s' event c := by
  have hopen : Abandoned (upgraded [keyRevocation]) legacyAppend legacyConsumer := by
    refine ⟨List.mem_cons_self, rfl, rfl, rfl, rfl, ⟨1, rfl, rfl⟩, ?_, ?_⟩
    · intro row hrow haction
      rcases List.mem_pair.mp hrow with rfl | rfl
      · cases haction
      · cases haction
    · intro row hrow hwhole htype
      rcases List.mem_pair.mp hrow with rfl | rfl
      · exact absurd hwhole.action (by decide)
      · cases htype
  refine ⟨{ upgraded [keyRevocation] with scanned := true, legacyScanState := .completed },
    .initial (upgraded_wellFormed (.inr rfl)) rfl, rfl, legacyAppend, legacyConsumer,
    Progress.of_same.abandoned.mpr hopen, ?_⟩
  rintro (⟨row, hrow, hid, -⟩ | ⟨row, hrow, hfor, -⟩)
  · cases hid
  · obtain rfl := List.mem_singleton.mp hrow
    cases hfor

end Example

end FerrumNexus.Credentials.LegacyScan
