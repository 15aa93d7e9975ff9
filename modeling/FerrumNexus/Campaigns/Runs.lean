import FerrumNexus.Campaigns.Fanout

/-!
# Campaigns in any run

Administrators send campaigns and retry them, from any number of servers, while
accounts and templates change and time passes. No window of twenty-four hours
holds more campaigns of an administrator than the limit; a campaign is charged
once, and each recipient has at most one copy of it, a copy of what was charged.
A send that succeeds reached every account that was there throughout.
-/
namespace FerrumNexus.Campaigns

open Saga Email Sequences Platform

variable {limits : Limits} {isolation : Isolation} {slot : ℕ}
  {held : Held} {α β : Type}

/-! ## Soundness -/

section Soundness

abbrev CampaignSound (limits : Limits)
    (F : campaignDiscipline.Fact) (slot : ℕ) (held : Held) (p : CampaignProgram α) : Prop :=
  campaignDiscipline.Sound F (fun _ => Change limits) slot held p

variable {F : campaignDiscipline.Fact}

theorem sound_transaction {body : CampaignQuery (CampaignWrite α)}
    (h : campaignDiscipline.Body F (fun _ => Change limits) isolation (held.map Prod.fst)
      body) :
    CampaignSound limits F slot held (transaction isolation slot body held) :=
  Discipline.sound_transact _ _ h

variable {campaign : Campaign}

theorem sound_charge (hplanned : Planned limits campaign)
    (hkey : campaign.actor ∈ held.map Prod.fst) :
    CampaignSound limits F slot held (charge limits isolation slot campaign held) := by
  apply Discipline.Sound.tryCatch
  · exact sound_transaction (chargeBody_body hplanned.digest hkey)
  · exact fun e => Discipline.sound_throw _

theorem sound_enqueueChunk {chunk : List UserRecord}
    (hfits : Fits limits campaign.prepared campaign.request chunk)
    (hselected : ∀ user ∈ chunk, Selects campaign.request.audience user) :
    CampaignSound limits (F.and (namedFact campaign)) slot held
      (enqueueChunk isolation slot campaign chunk held) := by
  apply sound_transaction
  cases hrows : chunkRows campaign chunk with
  | error failure => exact fun _ _ _ _ => trivial
  | ok rows => exact enqueueAll_body hfits hrows hselected

theorem sound_enqueueChunks {chunks : List (List UserRecord)}
    (hfits : ∀ chunk ∈ chunks, Fits limits campaign.prepared campaign.request chunk)
    (hselected : ∀ chunk ∈ chunks, ∀ user ∈ chunk, Selects campaign.request.audience user)
    (progress : Progress) :
    CampaignSound limits (F.and (namedFact campaign)) slot held
      (enqueueChunks isolation slot campaign held chunks progress) := by
  induction chunks generalizing progress with
  | nil => exact Discipline.sound_pure _
  | cons chunk rest ih =>
    obtain ⟨hchunk, hrest⟩ := List.forall_mem_cons.mp hfits
    obtain ⟨hfirst, hothers⟩ := List.forall_mem_cons.mp hselected
    apply Discipline.Sound.bind
    · apply Discipline.Sound.tryCatch
      · exact (sound_enqueueChunk hchunk hfirst).map _
      · exact fun e => Discipline.sound_pure _
    · intro result
      cases result with
      | ok created => exact ih hrest hothers _
      | error e => exact Discipline.sound_pure _

theorem sound_complete (campaign : Campaign) (progress : Progress) :
    CampaignSound limits F slot [] (complete isolation slot campaign progress) := by
  apply sound_transaction
  intro seen d _ _
  apply asks_bind
  apply asks_reads
  intro d₁ _ d₂ _
  exact commits_of_quiet (moves_record (by simp))

theorem reads_assertDailyLimit (limits : Limits) (campaign : Campaign) :
    Reads (assertDailyLimit limits campaign) := by
  unfold assertDailyLimit
  apply reads_ite (reads_pure _)
  apply (reads_look _ _).bind
  intro now
  apply (reads_look _ _).bind
  exact fun used => reads_ite (reads_pure _) (reads_throw _)

/-- What the charge answers, besides leaving its row. -/
theorem answers_charge (hplanned : Planned limits campaign) :
    campaignDiscipline.Answers F (charge limits isolation slot campaign held)
      fun _ d => (namedFact campaign).holds d := by
  refine Steady.tryCatch (Discipline.answers_transact _ _ ?_) fun e => steady_throw _
  intro d _
  apply (wpe_bind _ _).mpr
  apply wpe_look
  intro d₁ _
  split
  · apply (wpe_bind _ _).mpr
    apply wpe_look
    intro d₂ _
    split
    · exact (wpe_throw _).mpr trivial
    · rename_i hsome
      intro d₃ hgrows _ a d₄ hrun
      cases hrun
      obtain ⟨row, hrow⟩ := List.exists_mem_of_length_pos (Nat.pos_of_ne_zero hsome)
      obtain ⟨hstarted, hdigest⟩ := List.mem_filter.mp hrow
      have hnamed : Named campaign.actor campaign.batch (contentOf campaign.request) d₂ :=
        ⟨row, hstarted, by rw [beq_iff_eq.mp hdigest, hplanned.digest]⟩
      exact ⟨campaignDiscipline.grows_refl _, hnamed.grows hgrows⟩
  · apply (wpe_bind _ _).mpr
    have hskip := wpe_skip (campaignDiscipline.grows_refl d₁) campaignDiscipline.grows_trans
      (reads_assertDailyLimit limits campaign)
    apply wpe_mono hskip _ fun _ _ h => h
    intro _ d₂ _
    apply (wpe_bind _ _).mpr
    apply wpe_look
    intro d₃ _ d₄ _ _ a d₅ hrun
    cases hrun
    refine ⟨⟨le_rfl, List.prefix_append _ _, List.prefix_rfl⟩, startedRow campaign d₃.now, ?_, ?_⟩
    · simp [CampaignTables.started, AuditRecord.charges, startedRow]
    · exact congrArg some hplanned.digest

theorem sound_fanOut (hplanned : Planned limits campaign)
    (hkey : campaign.actor ∈ held.map Prod.fst) :
    CampaignSound limits F slot held (fanOut limits isolation slot campaign held) := by
  apply Discipline.Sound.learn (fun _ => namedFact campaign) (sound_charge hplanned hkey)
    (answers_charge hplanned)
  intro _
  apply Discipline.Sound.bind
  · apply sound_enqueueChunks (fun chunk hchunk => fits_of_plan hplanned.plan hchunk)
    intro chunk hchunk user hmem
    exact hplanned.selected user (mem_of_mem_slices (perChunk_pos hplanned.plan) hchunk hmem)
  · intro progress
    apply Discipline.Sound.bind
    · apply Discipline.Sound.tryCatch
      · exact (sound_complete campaign progress).outside.map _
      · exact fun _ => Discipline.sound_pure _
    · intro _
      unfold outcome
      split
      · exact Discipline.sound_pure _
      · exact Discipline.sound_throw _
      · exact Discipline.sound_throw _

section Prepare

variable {R : CampaignTables → CampaignTables → Prop} {d : CampaignTables}
  {Q : α → CampaignTables → Prop}

theorem wpe_checked {a : Except Refusal α} (h : ∀ b, a = .ok b → Q b d) :
    wpe R Eq (checked a) Q (fun _ _ => True) d := by
  cases a with
  | error refusal => trivial
  | ok b => exact h b rfl

theorem wpe_batchOf {key : Option (List Char)} {Q : List Char → CampaignTables → Prop}
    (h : ∀ batch d', d' = d ∨ R d d' → (∀ k, key = some k → batch = k) → Q batch d') :
    wpe R Eq (batchOf key) Q (fun _ _ => True) d := by
  cases key with
  | some k => exact h k d (.inl rfl) fun _ hk => Option.some_inj.mp hk
  | none =>
    apply (wpe_map _ _).mpr
    apply wpe_draw
    exact fun d' n hr => h (newId n) d' (.inr hr) nofun

/-- What a campaign was read and checked to be. -/
structure Prepares (limits : Limits) (actor : Uuid)
    (request : MassEmailRequest) (users : List UserRecord) (prepared : Prepared)
    (campaign : Campaign) : Prop where
  sender : campaign.actor = actor
  asked : campaign.request = request
  batch : ∀ key, request.idempotencyKey = some key → campaign.batch = key
  recipients : resolveAudience users request.audience = .ok campaign.recipients
  checked : checkRecipients limits campaign.recipients = .ok ()
  template : campaign.prepared = prepared
  planned : Planned limits campaign

/-- The accounts are those of one moment, and the template that of a later one. -/
theorem wpe_prepare {actor : Uuid} {request : MassEmailRequest}
    {Q : Campaign → CampaignTables → Prop} (h : ∀ d₁ d₂ d₃ campaign, R d d₁ →
      d₂ = d₁ ∨ R d₁ d₂ → R d₂ d₃ →
      Prepares limits actor request d₁.users d₃.prepared campaign → Q campaign d₃) :
    wpe R Eq (prepare limits actor request) Q (fun _ _ => True) d := by
  apply (wpe_bind _ _).mpr
  apply wpe_checked
  intro _ _
  apply (wpe_bind _ _).mpr
  apply wpe_look
  intro d₁ h₁
  apply (wpe_bind _ _).mpr
  apply wpe_checked
  intro recipients hrecipients
  apply (wpe_bind _ _).mpr
  apply wpe_checked
  intro _ hchecked
  apply (wpe_bind _ _).mpr
  apply wpe_batchOf
  intro batch d₂ h₂ hbatch
  apply (wpe_bind _ _).mpr
  apply wpe_look
  intro d₃ h₃
  apply (wpe_bind _ _).mpr
  apply wpe_checked
  intro plan hplan
  exact h d₁ d₂ d₃ _ h₁ h₂ h₃ ⟨rfl, rfl, hbatch, hrecipients, hchecked, rfl, rfl, hplan,
    fun _ => selects_of_mem hrecipients⟩

end Prepare

theorem sound_send (actor : Uuid) (request : MassEmailRequest) :
    CampaignSound limits (.none _) slot []
      (send limits isolation slot actor request) := by
  apply Discipline.sound_learn (fun campaign => Discipline.Fact.constant campaignDiscipline
    (Planned limits campaign ∧ campaign.actor = actor))
  · intro d _
    apply wpe_prepare
    exact fun _ _ _ campaign _ _ _ h => ⟨h.planned, h.sender⟩
  · intro campaign
    apply Discipline.Sound.given
    rintro ⟨hplanned, rfl⟩
    apply Discipline.Sound.tryCatch
    · apply Discipline.sound_underLease
      intro token
      exact sound_fanOut hplanned (by simp)
    · exact fun e => Discipline.sound_throw _

theorem sound_elsewhere (change : Elsewhere) :
    CampaignSound limits (.none _) slot [] (elsewhere isolation slot change) := by
  apply sound_transaction
  intro seen d _ _ d' _
  apply commits_of_quiet
  intro d _ d' hrun
  cases hrun
  exact ⟨le_rfl, ⟨change.audits, rfl, change.uncharged⟩, ⟨change.mail, rfl, change.foreign⟩⟩

theorem sound_tick : CampaignSound limits (.none _) slot [] (tick isolation slot) := by
  apply sound_transaction
  intro seen d _ _
  apply asks_bind
  apply wpe_draw
  intro d₁ elapsed _ d₂ _
  apply commits_of_quiet
  intro d _ d' hrun
  cases hrun
  exact ⟨Nat.le_add_right _ _, ⟨[], by simp, nofun⟩, ⟨[], by simp, nofun⟩⟩

theorem campaignProgram_sound (slot : ℕ) (op : CampaignOp)
    (s : Leased CampaignKey CampaignTables) :
    wp (campaignDiscipline.Kept slot) (campaignDiscipline.Guar (fun _ => Change limits) slot)
      (campaignProgram limits isolation slot op) (fun _ _ => True) s := by
  cases op with
  | send actor request => exact (sound_send actor request).toProgram s
  | elsewhere change => exact (sound_elsewhere change).toProgram s
  | tick => exact sound_tick.toProgram s

end Soundness

/-! ## Delivery -/

section Delivery

variable {actor : Uuid} {request : MassEmailRequest} {user : UserRecord}

/-- The account is there, and its copy renders. -/
def Reachable (request : MassEmailRequest) (user : UserRecord) (d : CampaignTables) : Prop :=
  user ∈ d.users ∧ ∃ copy, copyFor d.prepared request user = .ok copy

/-- Audit rows and mail are only added, and the account stays where it is. -/
def deliveryDiscipline (request : MassEmailRequest) (user : UserRecord) :
    Discipline CampaignKey CampaignTables where
  protects _ _ _ := True
  grows d d' := campaignDiscipline.grows d d' ∧
    (Reachable request user d → Reachable request user d')
  protects_refl _ _ := trivial
  protects_trans _ _ _ _ _ _ := trivial
  grows_refl d := ⟨campaignDiscipline.grows_refl d, id⟩
  grows_trans _ _ _ h h' := ⟨campaignDiscipline.grows_trans _ _ _ h.1 h'.1, h'.2 ∘ h.2⟩

/-- The outbox has a row for the account under the batch. -/
def Queued (actor : Uuid) (batch : List Char) (recipient : Uuid) (d : CampaignTables) : Prop :=
  ∃ row ∈ d.outbox, row.idempotencyKey = some (massKey actor batch recipient)

def reachableFact (request : MassEmailRequest) (user : UserRecord) :
    (deliveryDiscipline request user).Fact :=
  ⟨Reachable request user, fun _ _ h hgrows => hgrows.2 h⟩

def queuedFact (request : MassEmailRequest) (user : UserRecord) (P : Prop) (actor : Uuid)
    (batch : List Char) : (deliveryDiscipline request user).Fact where
  holds d := P → Queued actor batch user.id d
  stable := by
    intro d d' h hgrows hp
    obtain ⟨row, hrow, hkey⟩ := h hp
    exact ⟨row, hgrows.1.2.2.subset hrow, hkey⟩

variable {F : (deliveryDiscipline request user).Fact} {campaign : Campaign}

/-- A write that adds audit rows and mail and leaves everything else. -/
theorem grows_of_added {d d' : CampaignTables} (rows : List AuditRecord) (mail : List OutboxRow)
    (h : d' = { d with audits := d.audits ++ rows, outbox := d.outbox ++ mail }) :
    (deliveryDiscipline request user).grows d d' := by
  subst h
  exact ⟨⟨le_rfl, List.prefix_append _ _, List.prefix_append _ _⟩, id⟩

theorem lands_record {row : AuditRecord} {d : CampaignTables} :
    (deliveryDiscipline request user).Lands F (fun _ _ => True) (record row) d := by
  intro _ a d' hrun
  cases hrun
  exact ⟨grows_of_added [row] [] (by simp), trivial⟩

theorem bodyAnswers_charge :
    (deliveryDiscipline request user).BodyAnswers F (chargeBody limits campaign)
      fun _ _ => True := by
  intro d _
  apply (wpe_bind _ _).mpr
  apply wpe_look
  intro d₁ _
  split
  · apply (wpe_bind _ _).mpr
    apply wpe_look
    intro d₂ _
    split
    · exact (wpe_throw _).mpr trivial
    · intro d₃ _ _ a d₄ hrun
      cases hrun
      exact ⟨(deliveryDiscipline request user).grows_refl _, trivial⟩
  · apply (wpe_bind _ _).mpr
    have hskip := wpe_skip ((deliveryDiscipline request user).grows_refl d₁)
      (deliveryDiscipline request user).grows_trans (reads_assertDailyLimit limits campaign)
    apply wpe_mono hskip _ fun _ _ h => h
    intro _ d₂ _
    apply (wpe_bind _ _).mpr
    apply wpe_look
    exact fun d₃ _ d₄ _ => lands_record

theorem answers_charge_any :
    (deliveryDiscipline request user).Answers F (charge limits isolation slot campaign held)
      fun _ _ => True :=
  Steady.tryCatch (Discipline.answers_transact _ _ bodyAnswers_charge) fun _ => steady_throw _

theorem answers_enqueueChunk {chunk : List UserRecord}
    {copy : RenderedEmail} (hcopy : copyFor campaign.prepared campaign.request user = .ok copy) :
    (deliveryDiscipline request user).Answers F (enqueueChunk isolation slot campaign chunk held)
      fun _ d => user ∈ chunk → Queued campaign.actor campaign.batch user.id d := by
  apply Discipline.answers_transact
  cases hrows : chunkRows campaign chunk with
  | error failure => exact fun _ _ => trivial
  | ok rows =>
    apply Discipline.bodyAnswers_pure
    intro d _ created d' hrun
    have henqueued := enqueueAll_run hrun
    obtain ⟨new, hd', -, -⟩ := henqueued.added
    refine ⟨grows_of_added [] new (by simp [hd']), fun hmem => ?_⟩
    exact henqueued.present _ ((chunkRows_eq_ok hrows).2.2 user hmem copy hcopy) _ rfl

theorem answers_enqueueChunks {chunks : List (List UserRecord)} {copy : RenderedEmail}
    (hcopy : copyFor campaign.prepared campaign.request user = .ok copy) (progress : Progress) :
    (deliveryDiscipline request user).Answers F
      (enqueueChunks isolation slot campaign held chunks progress)
      fun reached d => reached.failure = none → user ∈ chunks.flatten →
        Queued campaign.actor campaign.batch user.id d := by
  induction chunks generalizing F progress with
  | nil => exact steady_pure fun _ _ _ hmem => by simp at hmem
  | cons chunk rest ih =>
    have hresult : (deliveryDiscipline request user).Answers F
        (tryCatch (Except.ok <$> enqueueChunk isolation slot campaign chunk held)
          fun e => pure (.error e) : CampaignProgram (Except SendError ℕ))
        fun result d => (queuedFact request user (result.isOk ∧ user ∈ chunk) campaign.actor
          campaign.batch).holds d := by
      apply Steady.tryCatch
      · apply Steady.map
        exact (answers_enqueueChunk hcopy).mono fun _ d hq hp => hq hp.2
      · exact fun e => steady_pure fun _ _ h => by simp [Except.isOk, Except.toBool] at h
    refine Steady.bind hresult fun result => ?_
    cases result with
    | error e => exact steady_pure fun _ _ hnone => by simp at hnone
    | ok created =>
      intro s hs
      refine wpe_mono
        (ih (F := F.and (queuedFact request user _ campaign.actor campaign.batch)) _ s hs) ?_
        fun _ _ h => h
      intro reached s' hs'
      refine ⟨hs'.1, fun hnone hmem => ?_⟩
      rw [List.flatten_cons, List.mem_append] at hmem
      rcases hmem with hhere | hrest
      · exact hs'.1.2 ⟨rfl, hhere⟩
      · exact hs'.2 hnone hrest

/-- The account is among the recipients, and its copy renders. -/
def Served (campaign : Campaign) (user : UserRecord) : Prop :=
  user ∈ campaign.recipients ∧
    ∃ copy, copyFor campaign.prepared campaign.request user = .ok copy

theorem answers_fanOut (hplanned : Planned limits campaign) (hserved : Served campaign user) :
    (deliveryDiscipline request user).Answers F (fanOut limits isolation slot campaign held)
      fun response d => response.batchId = campaign.batch ∧
        Queued campaign.actor campaign.batch user.id d := by
  obtain ⟨hmem, copy, hcopy⟩ := hserved
  refine Steady.andThen answers_charge_any fun _ => ?_
  have hchunks : (deliveryDiscipline request user).Answers F
      (enqueueChunks isolation slot campaign held
        (slices campaign.plan.perChunk campaign.recipients) {})
      fun reached d => (queuedFact request user (reached.failure = none) campaign.actor
        campaign.batch).holds d := by
    apply (answers_enqueueChunks hcopy {}).mono
    intro reached d hq hnone
    apply hq hnone
    rw [flatten_slices (perChunk_pos hplanned.plan)]
    exact hmem
  refine Steady.bind hchunks fun reached => ?_
  have hcomplete : (deliveryDiscipline request user).Answers
      (F.and (queuedFact request user (reached.failure = none) campaign.actor campaign.batch))
      (complete isolation slot campaign reached) fun _ _ => True := by
    apply Discipline.answers_transact
    intro d _
    apply (wpe_bind _ _).mpr
    apply wpe_look
    exact fun d₁ _ d₂ _ => lands_record
  refine Steady.andThen hcomplete.swallow fun _ => ?_
  cases hfailure : reached.failure with
  | none =>
    rw [outcome, hfailure]
    exact steady_pure fun s hs => ⟨rfl, hs.2 hfailure⟩
  | some e =>
    rw [outcome, hfailure]
    cases e with
    | _ => exact steady_throw _

/-- The account has its row, under the batch that is answered. -/
def Delivered (actor : Uuid) (request : MassEmailRequest) (user : UserRecord)
    (response : MassEmailResponse) (d : CampaignTables) : Prop :=
  (∀ key, request.idempotencyKey = some key → response.batchId = key) ∧
    Queued actor response.batchId user.id d

theorem answers_send (hselects : Selects request.audience user) :
    (deliveryDiscipline request user).Answers (reachableFact request user)
      (send limits isolation slot actor request) (Delivered actor request user) := by
  have hprepare : (deliveryDiscipline request user).Answers (reachableFact request user)
      (prepare limits actor request).watch fun campaign _ => campaign.actor = actor ∧
        (∀ key, request.idempotencyKey = some key → campaign.batch = key) ∧
          Planned limits campaign ∧ Served campaign user := by
    apply Discipline.answers_watch
    intro d hd
    apply wpe_prepare
    intro d₁ d₂ d₃ campaign h₁ h₂ h₃ hprepares
    have hthere : Reachable request user d₁ := h₁.2 hd
    have hrenders : Reachable request user d₃ := by
      rcases h₂ with rfl | h₂
      · exact h₃.2 hthere
      · exact h₃.2 (h₂.2 hthere)
    refine ⟨hprepares.sender, hprepares.batch, hprepares.planned, ?_, ?_⟩
    · apply mem_of_selects hprepares.recipients hthere.1
      exact hselects
    · rw [hprepares.template, hprepares.asked]
      exact hrenders.2
  refine Steady.bind hprepare fun campaign => ?_
  apply Steady.given
  rintro ⟨rfl, hbatch, hplanned, hserved⟩
  refine Steady.tryCatch ?_ fun _ => steady_throw _
  apply Discipline.answers_underLease
  · rintro response d d' ⟨hkey, row, hrow, hsame⟩ hgrows
    exact ⟨hkey, row, hgrows.1.2.2.subset hrow, hsame⟩
  · intro held
    apply (answers_fanOut hplanned hserved).mono
    rintro response d ⟨hsame, hqueued⟩
    exact ⟨fun key hkey => hsame.trans (hbatch key hkey), hsame.symm ▸ hqueued⟩

end Delivery

/-! ## Runs -/

section Results

variable {d d' : CampaignTables}

/-- What the tables account for. -/
structure Accounted (limits : Limits) (d : CampaignTables) : Prop where
  within : 0 < limits.maxMassEmailsPerDay → ∀ actor start,
    countWithin AuditRecord.createdAt MASS_EMAIL_BUDGET_WINDOW_MS start (d.charged actor) ≤
      limits.maxMassEmailsPerDay
  sole : ∀ actor batch, (d.started actor batch).length ≤ 1
  single : ∀ actor batch recipient, (d.queued actor batch recipient).length ≤ 1
  uniform : ∀ actor batch, ∃ request, ∀ recipient, ∀ row ∈ d.queued actor batch recipient,
    Named actor batch (contentOf request) d ∧ CopyOf actor batch request row

theorem mem_unique {A : Type} {xs : List A} (h : xs.length ≤ 1) {a b : A} (ha : a ∈ xs)
    (hb : b ∈ xs) : a = b := by
  match xs with
  | [] => cases ha
  | [x] => rw [List.mem_singleton.mp ha, List.mem_singleton.mp hb]
  | _ :: _ :: _ => simp at h

theorem Consistent.accounted (h : Consistent limits d) : Accounted limits d := by
  refine ⟨h.within, h.sole, h.single, fun actor batch => ?_⟩
  by_cases hsome : ∃ recipient row, row ∈ d.queued actor batch recipient
  · obtain ⟨recipient, row, hrow⟩ := hsome
    obtain ⟨request, hnamed, -⟩ := h.named actor batch recipient row hrow
    refine ⟨request, fun other row' hrow' => ⟨hnamed, ?_⟩⟩
    obtain ⟨request', ⟨audit', haudit', hdigest'⟩, hcopy'⟩ := h.named actor batch other row' hrow'
    obtain ⟨audit, haudit, hdigest⟩ := hnamed
    -- the batch has one charge, so the two requests have one content
    have hsame := mem_unique (h.sole actor batch) haudit haudit'
    rw [hsame, hdigest'] at hdigest
    exact hcopy'.congr (Option.some_inj.mp hdigest)
  · refine ⟨⟨[], [], [], { scope := .all }, none⟩, fun recipient row hrow => ?_⟩
    exact absurd ⟨recipient, row, hrow⟩ hsome

theorem Change.grows (h : Change limits d d') : campaignDiscipline.grows d d' := by
  rcases h with hq | ⟨actor, row, content, hc⟩ | ⟨actor, batch, request, hc⟩
  · exact hq.grows
  · exact hc.grows
  · exact hc.grows

def office : CampaignTables := ⟨5, [ann, ben], greetingTemplate, [], []⟩

def officeWorld : Leased CampaignKey CampaignTables :=
  ⟨office, fun _ => none, 0, fun _ => 0, fun _ => office, none⟩

theorem consistent_office (limits : Limits) : Consistent limits office where
  within _ _ _ := Nat.zero_le _
  sole _ _ := Nat.zero_le _
  single _ _ _ := Nat.zero_le _
  named _ _ _ _ h := absurd h List.not_mem_nil

def sends (slot steps : ℕ) (request : MassEmailRequest) : List (Pool.Event CampaignOp Chance) :=
  .start slot (.send root request) :: List.replicate steps (.step slot ⟨.ok, 7⟩)

/-- One send queues its first chunk and loses its lease to a retry, which queues
the other. A second campaign is over the daily limit. -/
def greets : List (Pool.Event CampaignOp Chance) :=
  sends 0 11 greeting ++ sends 1 15 greeting ++ .finish 1 ::
    List.replicate 7 (.step 0 ⟨.ok, 7⟩) ++ .finish 0 ::
    sends 2 9 { greeting with idempotencyKey := some "k:2".toList } ++ [.finish 2]

def greeted : List (List Char) := ["A &amp; [link removed]<b>".toList, "there<b>".toList]

variable {ok : Leased CampaignKey CampaignTables → CampaignOp → Prop}
  {s s' : Leased CampaignKey CampaignTables}
  {ts : ℕ → Option (Program (Leased CampaignKey CampaignTables) Chance Unit)}

/-- Whatever campaigns are sent and retried, in every state no administrator is
over the daily limit, each batch is charged once, and each recipient has at most
one copy of it, of the one request that was charged, which selects the account. -/
theorem accounted_of_reachable (limits : Limits) (isolation : Isolation)
    (h : Pool.Reachable (campaignProgram limits isolation) (fun s => Consistent limits s.data) ok
      Leased.stop s ts) : Accounted limits s.data :=
  (campaignDiscipline.invariant (I := Consistent limits) (fun _ hs => hs)
    (fun _ _ _ => consistent_of_change) campaignProgram_sound h).1.accounted

theorem accounted_of_reachable_greeting :
    ∃ s ts, Pool.Reachable (campaignProgram ceilings .readCommitted)
      (fun s => Consistent ceilings s.data) (fun _ _ => True) Leased.stop s ts ∧
      (s.data.outbox.map (·.bodyHtml) = greeted ∧ (s.data.charged root).length = 1) ∧
      Accounted ceilings s.data := by
  obtain ⟨s, ts, hs, hrows⟩ := Pool.exists_reachable_of_exec
    (campaignProgram ceilings .readCommitted) (fun s => Consistent ceilings s.data)
    (fun _ _ => True) Leased.stop greets
    (fun s => s.data.outbox.map (·.bodyHtml) == greeted && (s.data.charged root).length == 1)
    (fun _ _ => trivial) (s := officeWorld) (consistent_office _) (by decide +kernel)
  rw [Bool.and_eq_true, beq_iff_eq, beq_iff_eq] at hrows
  exact ⟨s, ts, hs, hrows, accounted_of_reachable _ _ hs⟩

/-- Every action of every run leaves the tables alone, or charges a batch for the
first time, with room in its window, or queues a chunk of a charged batch within
the limits of a transaction, or touches no campaign. -/
theorem step_of_transition (limits : Limits) (isolation : Isolation)
    (h : Pool.Transition (campaignProgram limits isolation) (fun s => Consistent limits s.data) ok
      Leased.stop s s') : s.data = s'.data ∨ Change limits s.data s'.data :=
  (Discipline.transition (I := Consistent limits) (fun _ hs => hs)
    (fun _ _ _ => consistent_of_change) campaignProgram_sound h).2

/-- The action of the retry that queues the other copy. -/
theorem exists_transition_retry :
    ∃ s s', Pool.Transition (campaignProgram ceilings .readCommitted)
      (fun s => Consistent ceilings s.data) (fun _ _ => True) Leased.stop s s' ∧
      s.data.outbox.length = 1 ∧ s'.data.outbox.length = 2 := by
  obtain ⟨s, s', h, hrows⟩ := Pool.exists_transition
    (campaignProgram ceilings .readCommitted) (fun s => Consistent ceilings s.data)
    (fun _ _ => True) Leased.stop (sends 0 11 greeting ++ sends 1 10 greeting) 1 ⟨.ok, 7⟩
    (fun s s' => s.data.outbox.length == 1 && s'.data.outbox.length == 2)
    (fun _ _ => trivial) (s := officeWorld) (consistent_office _) (by decide +kernel)
  rw [Bool.and_eq_true, beq_iff_eq, beq_iff_eq] at hrows
  exact ⟨s, s', h, hrows⟩

theorem step_of_transition_greeting :
    ∃ s s', Pool.Transition (campaignProgram ceilings .readCommitted)
      (fun s => Consistent ceilings s.data) (fun _ _ => True) Leased.stop s s' ∧
      (s.data.outbox.length = 1 ∧ s'.data.outbox.length = 2) ∧
      (s.data = s'.data ∨ Change ceilings s.data s'.data) := by
  obtain ⟨s, s', h, hrows⟩ := exists_transition_retry
  exact ⟨s, s', h, hrows, step_of_transition _ _ h⟩

/-- In every run audit rows and mail are only added. Where that is so, a send that
succeeds has queued a copy for every account its audience selects that was there
throughout and whose copy renders, whatever was queued before. -/
theorem send_delivers (limits : Limits) (isolation : Isolation) (slot : ℕ) (actor : Uuid)
    (request : MassEmailRequest) (user : UserRecord) (hselects : Selects request.audience user) :
    (∀ s s', Pool.Transition (campaignProgram limits isolation) (fun s => Consistent limits s.data)
      ok Leased.stop s s' → campaignDiscipline.grows s.data s'.data) ∧
    (deliveryDiscipline request user).Answers (reachableFact request user)
      (send limits isolation slot actor request) (Delivered actor request user) := by
  refine ⟨fun s s' h => ?_, answers_send hselects⟩
  obtain ⟨-, hsame | hchange⟩ := Discipline.transition (I := Consistent limits) (fun _ hs => hs)
    (fun _ _ _ => consistent_of_change) campaignProgram_sound h
  · rw [hsame]
    exact campaignDiscipline.grows_refl _
  · exact hchange.grows

/-- How a retry of the first campaign ends. -/
def retried (s : Leased CampaignKey CampaignTables) :=
  (send ceilings .readCommitted 1 root greeting).run.exec (List.replicate 15 ⟨.ok, 7⟩) s

/-- The retry answers for the first account too, whose copy it found queued. -/
theorem send_delivers_greeting :
    (∃ s s', Pool.Transition (campaignProgram ceilings .readCommitted)
      (fun s => Consistent ceilings s.data) (fun _ _ => True) Leased.stop s s' ∧
      (s.data.outbox.length = 1 ∧ s'.data.outbox.length = 2) ∧
      campaignDiscipline.grows s.data s'.data) ∧
    ∃ s ts s', Pool.Reachable (campaignProgram ceilings .readCommitted)
      (fun s => Consistent ceilings s.data) (fun _ _ => True) Leased.stop s ts ∧
      retried s = some (.ok ⟨1, 2, "k:1".toList⟩, s') ∧
      Delivered root greeting ann ⟨1, 2, "k:1".toList⟩ s'.data := by
  obtain ⟨hgrows, hanswers⟩ := @send_delivers (fun _ _ => True) ceilings .readCommitted 1 root
    greeting ann ⟨_, rfl, by decide⟩
  constructor
  · obtain ⟨s, s', h, hrows⟩ := exists_transition_retry
    exact ⟨s, s', h, hrows, hgrows s s' h⟩
  · obtain ⟨s, ts, hs, hretry⟩ := Pool.exists_reachable_of_exec
      (campaignProgram ceilings .readCommitted) (fun s => Consistent ceilings s.data)
      (fun _ _ => True) Leased.stop (sends 0 11 greeting)
      (fun s => (ann ∈ s.data.users && (copyFor s.data.prepared greeting ann).isOk) &&
        (retried s).any fun r => r.1 == .ok ⟨1, 2, "k:1".toList⟩)
      (fun _ _ => trivial) (s := officeWorld) (consistent_office _) (by decide +kernel)
    obtain ⟨hthere, hretry⟩ := Bool.and_eq_true_iff.mp hretry
    obtain ⟨hann, hrenders⟩ := Bool.and_eq_true_iff.mp hthere
    obtain ⟨⟨r, s'⟩, hexec, hr⟩ := (Option.any_eq_true _ _).mp hretry
    cases beq_iff_eq.mp hr
    have hreachable : Reachable greeting ann s.data := by
      refine ⟨of_decide_eq_true hann, ?_⟩
      cases hcopy : copyFor s.data.prepared greeting ann with
      | ok copy => exact ⟨copy, rfl⟩
      | error failure =>
        rw [hcopy] at hrenders
        cases hrenders
    have hdelivered := wp_exec (fun s => (deliveryDiscipline greeting ann).grows_refl s.data)
      (hanswers s hreachable) hexec
    exact ⟨s, ts, s', hs, hexec, hdelivered.2⟩

end Results

end FerrumNexus.Campaigns
