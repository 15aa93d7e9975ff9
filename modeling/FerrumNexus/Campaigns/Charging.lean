import FerrumNexus.Campaigns.Service

/-!
# What a commit does to the campaigns

A commit charges a campaign, or queues a chunk of one that is charged, or does
neither. Audit rows and mail are only added. So an outbox row of a campaign is
behind its charge, and is a copy of what was charged.
-/
namespace FerrumNexus.Campaigns

open Saga Email Sequences Platform

variable {limits : Limits} {d d' d'' : CampaignTables}

/-! ## Keys -/

theorem append_colon_inj {a b : List Char} {rest rest' : List Char} (ha : ':' ∉ a) (hb : ':' ∉ b)
    (h : a ++ ':' :: rest = b ++ ':' :: rest') : a = b ∧ rest = rest' := by
  induction a generalizing b with
  | nil =>
    cases b with
    | nil => simpa using h
    | cons c b =>
      simp only [List.nil_append, List.cons_append, List.cons.injEq] at h
      simp [← h.1] at hb
  | cons c a ih =>
    cases b with
    | nil =>
      simp only [List.nil_append, List.cons_append, List.cons.injEq] at h
      simp [h.1] at ha
    | cons e b =>
      simp only [List.cons_append, List.cons.injEq] at h
      simp only [List.mem_cons, not_or] at ha hb
      obtain ⟨rfl, hrest⟩ := ih ha.2 hb.2 h.2
      exact ⟨by rw [h.1], hrest⟩

variable {actor recipient : Uuid} {batch batch' : List Char} {request request' : MassEmailRequest}

/-- The key names the administrator, the batch and the recipient, whatever
characters the batch has. -/
theorem massKey_inj {actor' recipient' : Uuid}
    (h : massKey actor batch recipient = massKey actor' batch' recipient') :
    actor = actor' ∧ batch = batch' ∧ recipient = recipient' := by
  obtain ⟨hactor, hrest⟩ := append_colon_inj actor.plain actor'.plain (List.append_cancel_left h)
  have hback := congrArg List.reverse hrest
  simp only [List.reverse_append, List.reverse_cons, List.append_assoc, List.cons_append,
    List.nil_append] at hback
  obtain ⟨hrecipient, hbatch⟩ := append_colon_inj (by simpa using recipient.plain)
    (by simpa using recipient'.plain) hback
  refine ⟨?_, List.reverse_injective hbatch, ?_⟩
  · cases actor
    cases actor'
    simpa using hactor
  · cases recipient
    cases recipient'
    simpa using List.reverse_injective hrecipient

theorem Foreign.ne_massKey {row : OutboxRow} (h : Foreign row) (actor recipient : Uuid)
    (batch : List Char) : row.idempotencyKey ≠ some (massKey actor batch recipient) :=
  fun hkey => h _ hkey (List.prefix_append _ _)

/-! ## Audiences -/

theorem mem_iff_of_toFinset_eq {A : Type} [DecidableEq A] {xs ys : List A}
    (h : xs.toFinset = ys.toFinset) (a : A) : a ∈ xs ↔ a ∈ ys := by
  rw [← List.mem_toFinset, h, List.mem_toFinset]

theorem eq_nil_iff_of_toFinset_eq {A : Type} [DecidableEq A] {xs ys : List A}
    (h : xs.toFinset = ys.toFinset) : xs = [] ↔ ys = [] := by
  simp only [List.eq_nil_iff_forall_not_mem, mem_iff_of_toFinset_eq h]

/-- Whether a user's role is among those asked for; nothing asked for is any. -/
theorem all_contains_filter (roles : Option (List Role)) (role : Role) :
    (roles.filter (· ≠ [])).all (·.contains role) =
      (decide (roles.getD [] = []) || (roles.getD []).contains role) := by
  cases roles with
  | none => simp
  | some roles =>
    by_cases hnil : roles = []
    · simp [hnil]
    · simp [hnil, Option.filter]

/-- Whether an audience selects a user. -/
def Selects (audience : MassEmailAudience) (user : UserRecord) : Prop :=
  ∃ filter, audienceFilter audience = .ok filter ∧ filter.accepts user = true

theorem selects_of_mem {users recipients : List UserRecord} {audience : MassEmailAudience}
    (h : resolveAudience users audience = .ok recipients) {user : UserRecord}
    (hmem : user ∈ recipients) : Selects audience user := by
  unfold resolveAudience at h
  cases hfilter : audienceFilter audience with
  | error refusal =>
    rw [hfilter] at h
    cases h
  | ok filter =>
    rw [hfilter] at h
    cases h
    exact ⟨filter, hfilter, (List.mem_filter.mp hmem).2⟩

theorem mem_of_selects {users recipients : List UserRecord} {audience : MassEmailAudience}
    (h : resolveAudience users audience = .ok recipients) {user : UserRecord} (hmem : user ∈ users)
    (hselects : Selects audience user) : user ∈ recipients := by
  obtain ⟨filter, hfilter, haccepts⟩ := hselects
  rw [resolveAudience, hfilter] at h
  cases h
  exact List.mem_filter.mpr ⟨hmem, haccepts⟩

/-- Of two audiences with one normal form, one selects whom the other does. -/
theorem Selects.congr {a b : MassEmailAudience} {user : UserRecord}
    (h : normalizedAudience a = normalizedAudience b) (hselects : Selects a user) :
    Selects b user := by
  unfold normalizedAudience at h
  unfold Selects audienceFilter at hselects ⊢
  cases ha : a.scope with
  | all =>
    cases hb : b.scope with
    | all => simpa [ha] using hselects
    | explicit => simp [ha, hb] at h
    | filtered => simp [ha, hb] at h
  | explicit =>
    cases hb : b.scope with
    | all => simp [ha, hb] at h
    | filtered => simp [ha, hb] at h
    | explicit =>
      simp only [ha, hb, NormalizedAudience.explicit.injEq] at h hselects ⊢
      by_cases hnil : a.userIds.getD [] = []
      · simp [hnil] at hselects
      · have hnil' := mt (eq_nil_iff_of_toFinset_eq h).mpr hnil
        simpa [hnil, hnil', UserFilter.accepts, mem_iff_of_toFinset_eq h] using hselects
  | filtered =>
    cases hb : b.scope with
    | all => simp [ha, hb] at h
    | explicit => simp [ha, hb] at h
    | filtered =>
      simp only [ha, hb, NormalizedAudience.filtered.injEq] at h hselects ⊢
      obtain ⟨hstatus, hroles, horg⟩ := h
      have hrole : (a.roles.filter (· ≠ [])).all (·.contains user.role) =
          (b.roles.filter (· ≠ [])).all (·.contains user.role) := by
        rw [all_contains_filter, all_contains_filter]
        simp only [eq_nil_iff_of_toFinset_eq hroles, List.contains_eq_mem,
          mem_iff_of_toFinset_eq hroles]
      obtain ⟨filter, hfilter, haccepts⟩ := hselects
      cases hfilter
      refine ⟨_, rfl, ?_⟩
      simpa only [UserFilter.accepts, hrole, hstatus, horg] using haccepts

/-- A copy is made of the content of its campaign and of nothing else. -/
theorem copyFor_congr (h : contentOf request = contentOf request') (prepared : Prepared)
    (user : UserRecord) :
    copyFor prepared request user = copyFor prepared request' user := by
  simp only [contentOf, CampaignContent.mk.injEq] at h
  obtain ⟨hsubject, hhtml, htext, -⟩ := h
  have hvars (recipient : RecipientVars) :
      copyVars request recipient = copyVars request' recipient := by
    funext name
    simp only [copyVars, hsubject, hhtml, htext]
  simp only [copyFor, renderFor, hvars]

/-! ## Commits -/

/-- The holder of an administrator's lease is spared other charges of that
administrator; audit rows and mail only grow. -/
def campaignDiscipline : Discipline CampaignKey CampaignTables where
  protects actor d d' := d'.charged actor = d.charged actor
  grows d d' := d.now ≤ d'.now ∧ d.audits <+: d'.audits ∧ d.outbox <+: d'.outbox
  protects_refl _ _ := rfl
  protects_trans _ _ _ _ h h' := h'.trans h
  grows_refl _ := ⟨le_rfl, List.prefix_rfl, List.prefix_rfl⟩
  grows_trans _ _ _ h h' :=
    ⟨h.1.trans h'.1, h.2.1.trans h'.2.1, h.2.2.trans h'.2.2⟩

/-- An audit row charges the campaign with this content. -/
def Named (actor : Uuid) (batch : List Char)
    (content : CampaignContent) (d : CampaignTables) : Prop :=
  ∃ row ∈ d.started actor batch, row.details.contentSha256 = some content

/-- The row is the copy of an account that the request selects. -/
def CopyOf (actor : Uuid) (batch : List Char) (request : MassEmailRequest) (row : OutboxRow) :
    Prop :=
  ∃ prepared user copy, Selects request.audience user ∧
    copyFor prepared request user = .ok copy ∧ row = massRow actor batch user copy

theorem CopyOf.congr {row : OutboxRow} (h : contentOf request = contentOf request')
    (hcopy : CopyOf actor batch request row) : CopyOf actor batch request' row := by
  obtain ⟨prepared, user, copy, hselects, hok, rfl⟩ := hcopy
  have haudience := congrArg CampaignContent.audience h
  exact ⟨prepared, user, copy, hselects.congr haudience, copyFor_congr h prepared user ▸ hok, rfl⟩

/-- The outbox rows of a campaign. -/
def CampaignTables.queued (d : CampaignTables) (actor : Uuid) (batch : List Char)
    (recipient : Uuid) : List OutboxRow :=
  d.outbox.filter fun row => row.idempotencyKey == some (massKey actor batch recipient)

/-- A commit that charges nobody and queues no copy. -/
structure Quiet (d d' : CampaignTables) : Prop where
  now : d.now ≤ d'.now
  audits : ∃ rows, d'.audits = d.audits ++ rows ∧ ∀ row ∈ rows, row.action ≠ .adminMassEmail
  outbox : ∃ rows, d'.outbox = d.outbox ++ rows ∧ ∀ row ∈ rows, Foreign row

/-- A commit that charges `actor` with a batch for the first time, with room in
the window before its stamp. -/
structure Charge (limits : Limits) (actor : Uuid) (row : AuditRecord)
    (content : CampaignContent) (d d' : CampaignTables) : Prop where
  now : d'.now = d.now
  row_actor : row.actorUserId = some actor
  row_action : row.action = .adminMassEmail
  row_digest : row.details.contentSha256 = some content
  audits : d'.audits = d.audits ++ [row]
  outbox : d'.outbox = d.outbox
  first : d.started actor row.targetId = []
  room : 0 < limits.maxMassEmailsPerDay → ∃ since,
    since ≤ row.createdAt - MASS_EMAIL_BUDGET_WINDOW_MS ∧
      countSince AuditRecord.createdAt since (d.charged actor) < limits.maxMassEmailsPerDay

/-- A commit that queues a chunk of a campaign that is charged. -/
structure Chunk (limits : Limits) (actor : Uuid) (batch : List Char)
    (request : MassEmailRequest) (d d' : CampaignTables) : Prop where
  now : d'.now = d.now
  audits : d'.audits = d.audits
  named : Named actor batch (contentOf request) d
  outbox : ∃ rows, d'.outbox = d.outbox ++ rows ∧ (∀ row ∈ rows, CopyOf actor batch request row) ∧
    rows.length ≤ max 1 limits.chunkRecipients ∧
    (rows.map fun row => utf8Bytes row.subject + utf8Bytes row.bodyHtml + utf8Bytes row.bodyText +
      MASS_EMAIL_ROW_OVERHEAD_BYTES).sum ≤ MASS_EMAIL_CHUNK_BYTES
  single : ∀ recipient, (d.queued actor batch recipient).length ≤ 1 →
    (d'.queued actor batch recipient).length ≤ 1

def Change (limits : Limits) (d d' : CampaignTables) : Prop :=
  Quiet d d' ∨ (∃ actor row content, Charge limits actor row content d d') ∨
    ∃ actor batch request, Chunk limits actor batch request d d'

/-- What holds in every state. -/
structure Consistent (limits : Limits) (d : CampaignTables) :
    Prop where
  within : 0 < limits.maxMassEmailsPerDay → ∀ actor start,
    countWithin AuditRecord.createdAt MASS_EMAIL_BUDGET_WINDOW_MS start (d.charged actor) ≤
      limits.maxMassEmailsPerDay
  sole : ∀ actor batch, (d.started actor batch).length ≤ 1
  single : ∀ actor batch recipient, (d.queued actor batch recipient).length ≤ 1
  named : ∀ actor batch recipient, ∀ row ∈ d.queued actor batch recipient,
    ∃ request, Named actor batch (contentOf request) d ∧ CopyOf actor batch request row

section Growth

theorem charged_append (d : CampaignTables) (rows : List AuditRecord) (actor : Uuid)
    (h : d'.audits = d.audits ++ rows) :
    d'.charged actor = d.charged actor ++ rows.filter fun row => row.charges actor := by
  rw [CampaignTables.charged, h, List.filter_append, CampaignTables.charged]

theorem started_append (d : CampaignTables) (rows : List AuditRecord) (actor : Uuid)
    (batch : List Char) (h : d'.audits = d.audits ++ rows) :
    d'.started actor batch =
      d.started actor batch ++
        rows.filter fun row => row.charges actor && row.targetId == batch := by
  rw [CampaignTables.started, h, List.filter_append, CampaignTables.started]

theorem queued_append (d : CampaignTables) (rows : List OutboxRow) (actor : Uuid)
    (batch : List Char) (recipient : Uuid) (h : d'.outbox = d.outbox ++ rows) :
    d'.queued actor batch recipient = d.queued actor batch recipient ++
      rows.filter fun row => row.idempotencyKey == some (massKey actor batch recipient) := by
  rw [CampaignTables.queued, h, List.filter_append, CampaignTables.queued]

/-- Rows that charge nobody. -/
theorem filter_charges_eq_nil {rows : List AuditRecord} (actor : Uuid)
    (h : ∀ row ∈ rows, row.action ≠ .adminMassEmail) :
    (rows.filter fun row => row.charges actor) = [] := by
  rw [List.filter_eq_nil_iff]
  intro row hrow
  simp [AuditRecord.charges, h row hrow]

theorem filter_started_eq_nil {rows : List AuditRecord} (actor : Uuid) (batch : List Char)
    (h : ∀ row ∈ rows, row.action ≠ .adminMassEmail) :
    (rows.filter fun row => row.charges actor && row.targetId == batch) = [] := by
  rw [List.filter_eq_nil_iff]
  intro row hrow
  simp [AuditRecord.charges, h row hrow]

theorem filter_foreign_eq_nil {rows : List OutboxRow} (actor : Uuid) (batch : List Char)
    (recipient : Uuid) (h : ∀ row ∈ rows, Foreign row) :
    (rows.filter fun row => row.idempotencyKey == some (massKey actor batch recipient)) = [] := by
  rw [List.filter_eq_nil_iff]
  intro row hrow
  simpa using (h row hrow).ne_massKey actor recipient batch

theorem Named.grows {actor : Uuid} {batch : List Char} {content : CampaignContent}
    (h : Named actor batch content d) (hgrows : campaignDiscipline.grows d d') :
    Named actor batch content d' := by
  obtain ⟨row, hrow, hdigest⟩ := h
  obtain ⟨rows, haudits⟩ := hgrows.2.1
  refine ⟨row, ?_, hdigest⟩
  rw [started_append d rows actor batch haudits.symm]
  exact List.mem_append_left _ hrow

theorem Quiet.refl (d : CampaignTables) : Quiet d d :=
  ⟨le_rfl, ⟨[], by simp, nofun⟩, ⟨[], by simp, nofun⟩⟩

theorem Quiet.grows (h : Quiet d d') : campaignDiscipline.grows d d' := by
  obtain ⟨rows, haudits, -⟩ := h.audits
  obtain ⟨mail, houtbox, -⟩ := h.outbox
  exact ⟨h.now, haudits ▸ List.prefix_append _ _, houtbox ▸ List.prefix_append _ _⟩

theorem Quiet.charged (h : Quiet d d') (actor : Uuid) : d'.charged actor = d.charged actor := by
  obtain ⟨rows, haudits, hrows⟩ := h.audits
  rw [charged_append d rows actor haudits, filter_charges_eq_nil actor hrows, List.append_nil]

theorem Charge.grows {actor : Uuid} {row : AuditRecord} {content : CampaignContent}
    (h : Charge limits actor row content d d') : campaignDiscipline.grows d d' :=
  ⟨h.now.ge, h.audits ▸ List.prefix_append _ _, h.outbox ▸ List.prefix_rfl⟩

theorem Chunk.grows {actor : Uuid} {batch : List Char} {request : MassEmailRequest}
    (h : Chunk limits actor batch request d d') : campaignDiscipline.grows d d' := by
  obtain ⟨rows, houtbox, -⟩ := h.outbox
  exact ⟨h.now.ge, h.audits ▸ List.prefix_rfl, houtbox ▸ List.prefix_append _ _⟩

end Growth

/-! ## What the commits preserve -/

theorem Consistent.quiet (h : Consistent limits d) (hq : Quiet d d') :
    Consistent limits d' := by
  obtain ⟨rows, haudits, hrows⟩ := hq.audits
  obtain ⟨mail, houtbox, hmail⟩ := hq.outbox
  have hqueued (actor batch recipient) :
      d'.queued actor batch recipient = d.queued actor batch recipient := by
    rw [queued_append d mail actor batch recipient houtbox, filter_foreign_eq_nil _ _ _ hmail,
      List.append_nil]
  refine ⟨fun hlimit actor start => ?_, fun actor batch => ?_, fun actor batch recipient => ?_, ?_⟩
  · rw [hq.charged]
    exact h.within hlimit actor start
  · rw [started_append d rows actor batch haudits, filter_started_eq_nil _ _ hrows, List.append_nil]
    exact h.sole actor batch
  · rw [hqueued]
    exact h.single actor batch recipient
  · intro actor batch recipient row hrow
    rw [hqueued] at hrow
    obtain ⟨content, hnamed, hcopy⟩ := h.named actor batch recipient row hrow
    exact ⟨content, hnamed.grows hq.grows, hcopy⟩

theorem Consistent.charge (h : Consistent limits d) {row : AuditRecord} {content : CampaignContent}
    (hc : Charge limits actor row content d d') :
    Consistent limits d' := by
  have hqueued (other batch recipient) :
      d'.queued other batch recipient = d.queued other batch recipient := by
    rw [CampaignTables.queued, hc.outbox, CampaignTables.queued]
  have hcharges (other : Uuid) : row.charges other = (actor == other) := by
    simp [AuditRecord.charges, hc.row_actor, hc.row_action]
  refine ⟨fun hlimit other start => ?_, fun other batch => ?_, fun other batch recipient => ?_, ?_⟩
  · rw [charged_append d [row] other hc.audits]
    by_cases hother : actor = other
    · subst hother
      obtain ⟨since, hsince, hroom⟩ := hc.room hlimit
      have hone : ([row].filter fun row => row.charges actor) = [row] := by simp [hcharges]
      rw [hone]
      exact countWithin_concat_le (h.within hlimit actor) hsince hroom start
    · have hnone : ([row].filter fun row => row.charges other) = [] := by simp [hcharges, hother]
      rw [hnone, List.append_nil]
      exact h.within hlimit other start
  · rw [started_append d [row] other batch hc.audits, List.length_append]
    have hold := h.sole other batch
    by_cases hsame : actor = other ∧ row.targetId = batch
    · obtain ⟨rfl, rfl⟩ := hsame
      have hone := List.length_filter_le (fun other => other.charges actor &&
        other.targetId == row.targetId) [row]
      simp only [List.length_singleton] at hone
      rw [hc.first]
      simpa using hone
    · have hnone : ([row].filter fun row => row.charges other && row.targetId == batch) = [] := by
        rw [List.filter_eq_nil_iff]
        intro new hnew
        rw [List.mem_singleton.mp hnew]
        simpa [hcharges] using hsame
      simpa [hnone] using hold
  · rw [hqueued]
    exact h.single other batch recipient
  · intro other batch recipient mail hmail
    rw [hqueued] at hmail
    obtain ⟨content', hnamed, hcopy⟩ := h.named other batch recipient mail hmail
    exact ⟨content', hnamed.grows hc.grows, hcopy⟩

/-- A copy of one campaign is not a copy of another. -/
theorem CopyOf.eq_of_key {other : Uuid} {row : OutboxRow} (h : CopyOf actor batch request row)
    (hkey : row.idempotencyKey = some (massKey other batch' recipient)) :
    actor = other ∧ batch = batch' := by
  obtain ⟨_, user, copy, _, _, rfl⟩ := h
  obtain ⟨hactor, hbatch, -⟩ := massKey_inj (Option.some_inj.mp hkey)
  exact ⟨hactor, hbatch⟩

theorem Consistent.chunk (h : Consistent limits d) (hc : Chunk limits actor batch request d d') :
    Consistent limits d' := by
  obtain ⟨rows, houtbox, hrows, -⟩ := hc.outbox
  refine ⟨fun hlimit other start => ?_, fun other batch' => ?_,
    fun other batch' recipient => ?_, ?_⟩
  · rw [CampaignTables.charged, hc.audits]
    exact h.within hlimit other start
  · rw [CampaignTables.started, hc.audits]
    exact h.sole other batch'
  · by_cases hsame : actor = other ∧ batch = batch'
    · obtain ⟨rfl, rfl⟩ := hsame
      exact hc.single recipient (h.single actor batch recipient)
    · have hnone : (rows.filter fun row =>
          row.idempotencyKey == some (massKey other batch' recipient)) = [] := by
        rw [List.filter_eq_nil_iff]
        intro row hrow hkey
        exact hsame ((hrows row hrow).eq_of_key (beq_iff_eq.mp hkey))
      rw [queued_append d rows other batch' recipient houtbox, hnone, List.append_nil]
      exact h.single other batch' recipient
  · intro other batch' recipient row hrow
    rw [queued_append d rows other batch' recipient houtbox] at hrow
    rcases List.mem_append.mp hrow with hold | hnew
    · obtain ⟨content', hnamed, hcopy⟩ := h.named other batch' recipient row hold
      exact ⟨content', hnamed.grows hc.grows, hcopy⟩
    · obtain ⟨hmem, hkey⟩ := List.mem_filter.mp hnew
      obtain ⟨rfl, rfl⟩ := (hrows row hmem).eq_of_key (beq_iff_eq.mp hkey)
      exact ⟨request, hc.named.grows hc.grows, hrows row hmem⟩

theorem consistent_of_change (h : Consistent limits d)
    (hc : Change limits d d') : Consistent limits d' := by
  rcases hc with hq | ⟨actor, row, content, hc⟩ | ⟨actor, batch, request, hc⟩
  · exact h.quiet hq
  · exact h.charge hc
  · exact h.chunk hc

end FerrumNexus.Campaigns
