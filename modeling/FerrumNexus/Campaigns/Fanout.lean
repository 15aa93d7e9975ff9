import FerrumNexus.Campaigns.Charging
import FerrumNexus.Saga.Steady

/-!
# The fan-out keeps to the discipline

Under the administrator's lease nobody else charges that administrator, so the
charge still has its room when it commits, and no second charge of the batch is
in between. The chunks rely on the charge, which nothing removes.
-/
namespace FerrumNexus.Campaigns

open Saga Email Sequences Platform

variable {limits : Limits} {isolation : Isolation}
  {d d' : CampaignTables}

/-! ## Writes -/

theorem enqueue_run {row : OutboxRow} {created : Bool}
    (h : (enqueue row).run d = .ok (created, d')) :
    (created = false ∧ d' = d ∧ ∃ key, row.idempotencyKey = some key ∧
        ∃ other ∈ d.outbox, other.idempotencyKey = some key) ∨
      (created = true ∧ d' = { d with outbox := d.outbox ++ [row] } ∧
        ∀ key, row.idempotencyKey = some key →
          ∀ other ∈ d.outbox, other.idempotencyKey ≠ some key) := by
  obtain ⟨d₀, d₁, hget, h⟩ := run_bind_ok.mp h
  cases hget
  split at h
  · rename_i htaken
    cases h
    obtain ⟨key, hkey, htaken⟩ := (Option.any_eq_true _ _).mp htaken
    obtain ⟨other, hother, hsame⟩ := List.any_eq_true.mp htaken
    exact .inl ⟨rfl, rfl, key, hkey, other, hother, beq_iff_eq.mp hsame⟩
  · rename_i hfree
    obtain ⟨_, d₂, hmodify, hpure⟩ := run_bind_ok.mp h
    cases hmodify
    cases hpure
    refine .inr ⟨rfl, rfl, fun key hkey other hother hsame => hfree ?_⟩
    rw [hkey, Option.any_some, List.any_eq_true]
    exact ⟨other, hother, beq_iff_eq.mpr hsame⟩

/-- The rows of the outbox under a key. -/
def CampaignTables.under (d : CampaignTables) (key : List Char) : List OutboxRow :=
  d.outbox.filter fun row => row.idempotencyKey == some key

/-- What queueing some rows does: it adds some of them, and then each has its
key in the outbox, still at most once. -/
structure Enqueued (rows : List OutboxRow) (created : ℕ) (d d' : CampaignTables) : Prop where
  added : ∃ new, d' = { d with outbox := d.outbox ++ new } ∧ new.Sublist rows ∧
    created = new.length
  present : ∀ row ∈ rows, ∀ key, row.idempotencyKey = some key →
    ∃ other ∈ d'.outbox, other.idempotencyKey = some key
  single : ∀ key, (d.under key).length ≤ 1 → (d'.under key).length ≤ 1

variable {rows : List OutboxRow}

theorem enqueueAll_run {created : ℕ} (h : (enqueueAll rows).run d = .ok (created, d')) :
    Enqueued rows created d d' := by
  induction rows generalizing d d' created with
  | nil =>
    cases h
    exact ⟨⟨[], by simp, List.Sublist.refl _, rfl⟩, nofun, fun _ h => h⟩
  | cons row rest ih =>
    obtain ⟨first, d₁, hrow, h⟩ := run_bind_ok.mp h
    obtain ⟨more, d₂, hrest, hpure⟩ := run_bind_ok.mp h
    cases hpure
    have hih := ih hrest
    obtain ⟨new, rfl, hnew, rfl⟩ := hih.added
    have hkept : ∀ other ∈ d₁.outbox, other ∈ d₁.outbox ++ new :=
      fun other hother => List.mem_append_left new hother
    rcases enqueue_run hrow with ⟨rfl, rfl, key, hkey, other, hother, hsame⟩ | ⟨rfl, rfl, hfree⟩
    · refine ⟨⟨new, rfl, hnew.cons row, by simp⟩, ?_, hih.single⟩
      intro row' hrow' key' hkey'
      rcases List.mem_cons.mp hrow' with rfl | hrow'
      · obtain rfl : key = key' := Option.some_inj.mp (hkey.symm.trans hkey')
        exact ⟨other, hkept other hother, hsame⟩
      · exact hih.present row' hrow' key' hkey'
    · refine ⟨⟨row :: new, by simp, hnew.cons_cons row, by simp [Nat.add_comm]⟩, ?_, ?_⟩
      · intro row' hrow' key' hkey'
        rcases List.mem_cons.mp hrow' with rfl | hrow'
        · exact ⟨row', hkept row' (by simp), hkey'⟩
        · exact hih.present row' hrow' key' hkey'
      · intro key hkey
        apply hih.single key
        simp only [CampaignTables.under, List.filter_append, List.length_append] at hkey ⊢
        by_cases hsame : row.idempotencyKey = some key
        · have hnone : (d.outbox.filter fun row => row.idempotencyKey == some key) = [] := by
            rw [List.filter_eq_nil_iff]
            intro other hother
            simpa using hfree key hsame other hother
          simp [hnone, hsame]
        · simpa [hsame] using hkey

/-! ## Chunks -/

/-- A campaign as `prepare` leaves it. -/
structure Planned (limits : Limits) (campaign : Campaign) : Prop where
  digest : campaign.digest = contentOf campaign.request
  plan : planCampaign limits campaign.prepared campaign.request campaign.recipients =
    .ok campaign.plan
  selected : ∀ user ∈ campaign.recipients, Selects campaign.request.audience user

/-- The rows of a chunk are the copies of its recipients. -/
theorem chunkRows_eq_ok {campaign : Campaign} {chunk : List UserRecord}
    (h : chunkRows campaign chunk = .ok rows) :
    ((∀ user ∈ chunk, Selects campaign.request.audience user) →
      ∀ row ∈ rows, CopyOf campaign.actor campaign.batch campaign.request row) ∧
      (rows.map fun row => utf8Bytes row.subject + utf8Bytes row.bodyHtml + utf8Bytes row.bodyText +
          MASS_EMAIL_ROW_OVERHEAD_BYTES) =
        (copiesOf campaign.prepared campaign.request chunk).map
          (fun copy => copyBytes copy + MASS_EMAIL_ROW_OVERHEAD_BYTES) ∧
      ∀ recipient ∈ chunk, ∀ copy, copyFor campaign.prepared campaign.request recipient = .ok copy →
        massRow campaign.actor campaign.batch recipient copy ∈ rows := by
  induction chunk generalizing rows with
  | nil =>
    cases h
    exact ⟨fun _ => nofun, rfl, nofun⟩
  | cons recipient rest ih =>
    rw [chunkRows] at h
    cases hcopy : copyFor campaign.prepared campaign.request recipient with
    | error failure =>
      rw [hcopy] at h
      cases failure with
      | other => cases h
      | linkPolicy =>
        obtain ⟨hcopies, hbytes, hall⟩ := ih h
        refine ⟨fun hselected => hcopies (List.forall_mem_cons.mp hselected).2,
          by simpa [copiesOf, hcopy, Except.toOption] using hbytes, ?_⟩
        intro recipient' hmem copy hok
        rcases List.mem_cons.mp hmem with rfl | hmem
        · rw [hcopy] at hok
          cases hok
        · exact hall recipient' hmem copy hok
    | ok copy =>
      rw [hcopy] at h
      cases hrest : chunkRows campaign rest with
      | error failure =>
        rw [hrest] at h
        cases h
      | ok others =>
        rw [hrest] at h
        cases h
        obtain ⟨hcopies, hbytes, hall⟩ := ih hrest
        refine ⟨?_, ?_, ?_⟩
        · intro hselected row hrow
          obtain ⟨hfirst, hothers⟩ := List.forall_mem_cons.mp hselected
          rcases List.mem_cons.mp hrow with rfl | hrow
          · exact ⟨campaign.prepared, recipient, copy, hfirst, hcopy, rfl⟩
          · exact hcopies hothers row hrow
        · rw [List.map_cons, hbytes]
          simp [copiesOf, hcopy, massRow, copyBytes, Except.toOption]
        · intro recipient' hmem copy' hok
          rcases List.mem_cons.mp hmem with rfl | hmem
          · rw [hcopy] at hok
            cases hok
            exact List.mem_cons_self
          · exact List.mem_cons_of_mem _ (hall recipient' hmem copy' hok)

/-- The commit of a chunk, whatever of it was queued before. -/
theorem chunk_of_enqueued {campaign : Campaign} {chunk : List UserRecord} {created : ℕ}
    (hfits : Fits limits campaign.prepared campaign.request chunk)
    (hrows : chunkRows campaign chunk = .ok rows)
    (hselected : ∀ user ∈ chunk, Selects campaign.request.audience user)
    (hnamed : Named campaign.actor campaign.batch (contentOf campaign.request) d)
    (h : Enqueued rows created d d') :
    Chunk limits campaign.actor campaign.batch campaign.request d d' := by
  obtain ⟨hcopies, hbytes, -⟩ := chunkRows_eq_ok hrows
  obtain ⟨new, rfl, hnew, -⟩ := h.added
  refine ⟨rfl, rfl, hnamed, ⟨new, rfl, ?_, ?_, ?_⟩, ?_⟩
  · exact fun row hrow => hcopies hselected row (hnew.subset hrow)
  · have hcount : rows.length ≤ chunk.length := by
      have hlength := congrArg List.length hbytes
      rw [List.length_map, List.length_map] at hlength
      rw [hlength]
      exact List.length_filterMap_le _ _
    have hsub := hnew.length_le
    have hlimit := hfits.length
    omega
  · have hsum := (hnew.map fun row => utf8Bytes row.subject + utf8Bytes row.bodyHtml +
      utf8Bytes row.bodyText + MASS_EMAIL_ROW_OVERHEAD_BYTES).sum_le_sum fun _ _ => Nat.zero_le _
    rw [hbytes] at hsum
    exact hsum.trans hfits.bytes
  · exact fun recipient => h.single _

/-! ## Bodies -/

section Bodies

variable {keys : List CampaignKey} {α β : Type}

/-- What the reads of a transaction show, others moving the tables in between. -/
abbrev Asks (isolation : Isolation) (keys : List CampaignKey) (p : CampaignQuery α)
    (Q : α → CampaignTables → Prop) (d : CampaignTables) : Prop :=
  wpe (campaignDiscipline.Evolves isolation keys) Eq p Q (fun _ _ => True) d

theorem asks_bind {p : CampaignQuery β} {g : β → CampaignQuery α} {Q : α → CampaignTables → Prop}
    (h : Asks isolation keys p (fun b => Asks isolation keys (g b) Q) d) :
    Asks isolation keys (p >>= g) Q d :=
  (wpe_bind p g).mpr h

theorem asks_reads {f : CampaignTables → α} {Q : α → CampaignTables → Prop}
    (h : ∀ d', campaignDiscipline.Evolves isolation keys d d' → Q (f d') d') :
    Asks isolation keys (reads f) Q d :=
  wpe_look h

/-- Nothing charges the batch, and one more charge before `stamp` has room. -/
structure Chargeable (limits : Limits) (actor : Uuid) (batch : List Char) (stamp : ℕ)
    (d : CampaignTables) : Prop where
  first : d.started actor batch = []
  room : 0 < limits.maxMassEmailsPerDay → ∃ since,
    since ≤ stamp - MASS_EMAIL_BUDGET_WINDOW_MS ∧
      countSince AuditRecord.createdAt since (d.charged actor) < limits.maxMassEmailsPerDay

theorem started_eq_filter (d : CampaignTables) (actor : Uuid) (batch : List Char) :
    d.started actor batch = (d.charged actor).filter fun row => row.targetId == batch := by
  rw [CampaignTables.started, CampaignTables.charged, List.filter_filter]
  exact List.filter_congr fun row _ => Bool.and_comm _ _

theorem started_evolves {actor : Uuid} {batch : List Char} (hkey : actor ∈ keys)
    (h : campaignDiscipline.Evolves isolation keys d d') :
    d'.started actor batch = d.started actor batch := by
  rw [started_eq_filter, started_eq_filter]
  exact congrArg _ (h.protects actor hkey)

theorem Chargeable.evolves {actor : Uuid} {batch : List Char} {stamp stamp' : ℕ}
    (h : Chargeable limits actor batch stamp d) (hkey : actor ∈ keys)
    (hev : campaignDiscipline.Evolves isolation keys d d') (hstamp : stamp ≤ stamp') :
    Chargeable limits actor batch stamp' d' := by
  refine ⟨(started_evolves hkey hev).trans h.first, fun hlimit => ?_⟩
  obtain ⟨since, hsince, hroom⟩ := h.room hlimit
  refine ⟨since, by omega, ?_⟩
  have hsame : d'.charged actor = d.charged actor := hev.protects actor hkey
  rw [hsame]
  exact hroom

/-- A write that charges nobody keeps to the discipline under any keys. -/
theorem commits_of_quiet {seen : CampaignKey → CampaignTables} {write : CampaignWrite α}
    (h : Moves Quiet write) :
    campaignDiscipline.Commits (fun _ => Change limits) keys seen write d := by
  intro a d' hrun
  have hq := h d a d' hrun
  exact ⟨hq.grows, fun actor _ => hq.charged actor, fun _ _ => .inl hq⟩

theorem moves_record {row : AuditRecord} (h : row.action ≠ .adminMassEmail) :
    Moves Quiet (record row) := by
  intro d a d' hrun
  cases hrun
  refine ⟨le_rfl, ⟨[row], rfl, ?_⟩, ⟨[], by simp, nofun⟩⟩
  intro other hother
  rw [List.mem_singleton.mp hother]
  exact h

variable {campaign : Campaign}

/-- The charge, with its room, keeps to the discipline under the lease of its
administrator. -/
theorem commits_charge {stamp : ℕ} {seen : CampaignKey → CampaignTables}
    (hdigest : campaign.digest = contentOf campaign.request)
    (hkey : campaign.actor ∈ keys)
    (h : Chargeable limits campaign.actor campaign.batch stamp d) :
    campaignDiscipline.Commits (fun _ => Change limits) keys seen
      (record (startedRow campaign stamp)) d := by
  intro a d' hrun
  have hc : Charge limits campaign.actor (startedRow campaign stamp)
      (contentOf campaign.request) d d' := by
    cases hrun
    exact ⟨rfl, rfl, rfl, congrArg some hdigest, rfl, rfl, h.first, h.room⟩
  refine ⟨hc.grows, fun other hother => ?_, fun _ _ => .inr (.inl ⟨_, _, _, hc⟩)⟩
  have hne : campaign.actor ≠ other := fun heq => hother (heq ▸ hkey)
  change d'.charged other = d.charged other
  rw [charged_append d _ other hc.audits]
  simp [AuditRecord.charges, startedRow, hne]

theorem asks_assertDailyLimit (hkey : campaign.actor ∈ keys)
    (h : d.started campaign.actor campaign.batch = []) :
    Asks isolation keys (assertDailyLimit limits campaign)
      (fun _ d' => Chargeable limits campaign.actor campaign.batch d'.now d') d := by
  rw [assertDailyLimit]
  split
  · rename_i hlimit
    exact ⟨h, fun hpos => absurd hlimit hpos.ne'⟩
  · apply asks_bind
    apply asks_reads
    intro d₁ h₁
    apply asks_bind
    apply asks_reads
    intro d₂ h₂
    split
    · rename_i hused
      refine ⟨(started_evolves hkey (h₁.trans h₂)).trans h, fun _ => ?_⟩
      have hnow : d₁.now ≤ d₂.now := h₂.grows.1
      exact ⟨_, Nat.sub_le_sub_right hnow _, hused⟩
    · trivial

theorem chargeBody_body (hdigest : campaign.digest = contentOf campaign.request)
    (hkey : campaign.actor ∈ keys) {F : campaignDiscipline.Fact} :
    campaignDiscipline.Body F (fun _ => Change limits) isolation keys
      (chargeBody limits campaign) := by
  intro seen d _ _
  apply asks_bind
  apply asks_reads
  intro d₁ _
  split
  · apply asks_bind
    apply asks_reads
    intro d₂ _
    split
    · exact (wpe_throw _).mpr trivial
    · exact fun d₃ _ => commits_of_quiet (moves_pure Quiet.refl ())
  · rename_i hnone
    have hfirst : d₁.started campaign.actor campaign.batch = [] :=
      List.eq_nil_of_length_eq_zero (by omega)
    apply asks_bind
    apply wpe_mono (asks_assertDailyLimit hkey hfirst) _ fun _ _ h => h
    intro _ d₂ hchargeable
    apply asks_bind
    apply asks_reads
    intro d₃ h₃ d₄ h₄
    exact commits_charge hdigest hkey (hchargeable.evolves hkey (h₃.trans h₄) h₃.grows.1)

/-- The fact that the campaign is charged. -/
def namedFact (campaign : Campaign) : campaignDiscipline.Fact :=
  ⟨Named campaign.actor campaign.batch (contentOf campaign.request),
    fun _ _ h hgrows => h.grows hgrows⟩

theorem enqueueAll_body {chunk : List UserRecord} {rows : List OutboxRow}
    (hfits : Fits limits campaign.prepared campaign.request chunk)
    (hrows : chunkRows campaign chunk = .ok rows)
    (hselected : ∀ user ∈ chunk, Selects campaign.request.audience user)
    {F : campaignDiscipline.Fact} :
    campaignDiscipline.Body (F.and (namedFact campaign)) (fun _ => Change limits)
      isolation keys (pure (enqueueAll rows)) := by
  intro seen d hfact _ d₁ h₁ created d' hrun
  have hnamed := ((namedFact campaign).stable d d₁ hfact.2 h₁.grows)
  have hc := chunk_of_enqueued hfits hrows hselected hnamed (enqueueAll_run hrun)
  refine ⟨hc.grows, fun actor _ => ?_, fun _ _ => .inr (.inr ⟨_, _, _, hc⟩)⟩
  simp [campaignDiscipline, CampaignTables.charged, hc.audits]

end Bodies

end FerrumNexus.Campaigns
