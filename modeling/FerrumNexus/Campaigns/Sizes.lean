import FerrumNexus.Campaigns.Copies

/-!
# No copy is larger than the plan

Each part of a copy grows with the values put into it: the subject and the text
with the values as they are, the HTML with the escaped ones. The two worst cases
bound them, also where the link policy has a copy rendered under another name.
-/
namespace FerrumNexus.Campaigns

open Email Sequences Platform

/-! ## Escaping -/

@[simp] theorem utf8Bytes_nil : utf8Bytes [] = 0 := rfl

theorem utf8Size_le_escapeChar (c : Char) : c.utf8Size ≤ utf8Bytes (escapeChar c) := by
  unfold escapeChar
  split
  · decide
  · decide
  · decide
  · decide
  · decide
  · simp [utf8Bytes]

theorem utf8Bytes_le_escaped (value : List Char) : utf8Bytes value ≤ escapedBytes value := by
  induction value with
  | nil => simp [utf8Bytes]
  | cons c value ih =>
    have hc := utf8Size_le_escapeChar c
    simp only [escapedBytes, escapeHtml, utf8Bytes, weight_cons, List.flatMap_cons, weight_append]
      at ih hc ⊢
    omega

theorem escapeHtml_replicate (n : ℕ) :
    escapeHtml (List.replicate n 'x') = List.replicate n 'x' := by
  induction n with
  | zero => rfl
  | succ n ih =>
    rw [escapeHtml] at ih ⊢
    rw [List.replicate_succ, List.flatMap_cons, ih]
    rfl

@[simp] theorem utf8Bytes_inertLike (name : List Char) :
    utf8Bytes (inertLike name) = escapedBytes name := by
  rw [utf8Bytes, inertLike, weight_replicate]
  exact Nat.mul_one _

@[simp] theorem escapedBytes_inertLike (name : List Char) :
    escapedBytes (inertLike name) = escapedBytes name := by
  rw [escapedBytes, inertLike, escapeHtml_replicate]
  exact utf8Bytes_inertLike name

/-! ## Worst cases -/

section Worst

variable {size : List Char → ℕ}

theorem le_keepLarger_left (most value : List Char) :
    size most ≤ size (keepLarger size most value) := by
  unfold keepLarger
  split
  · omega
  · exact le_rfl

theorem le_keepLarger_right (most value : List Char) :
    size value ≤ size (keepLarger size most value) := by
  unfold keepLarger
  split
  · exact le_rfl
  · omega

/-- `worst` is at least as large as `recipient` in both values. -/
structure Covers (size : List Char → ℕ) (worst recipient : RecipientVars) : Prop where
  name : size recipient.name ≤ size worst.name
  email : size recipient.email ≤ size worst.email

theorem Covers.trans {a b c : RecipientVars} (h : Covers size a b) (h' : Covers size b c) :
    Covers size a c :=
  ⟨h'.name.trans h.name, h'.email.trans h.email⟩

/-- The fold never drops below where it starts, nor below any recipient. -/
theorem covers_foldl (recipients : List UserRecord) (start : RecipientVars) :
    let worst := recipients.foldl (fun worst recipient =>
      { name := keepLarger size worst.name (neutralRecipientName recipient.displayName)
        email := keepLarger size worst.email recipient.email : RecipientVars }) start
    Covers size worst start ∧
      ∀ recipient ∈ recipients, Covers size worst (recipientVars recipient) := by
  induction recipients generalizing start with
  | nil => exact ⟨⟨le_rfl, le_rfl⟩, nofun⟩
  | cons first rest ih =>
    obtain ⟨hstart, hrest⟩ := ih
      ⟨keepLarger size start.name (neutralRecipientName first.displayName),
        keepLarger size start.email first.email⟩
    refine ⟨hstart.trans ⟨le_keepLarger_left _ _, le_keepLarger_left _ _⟩, ?_⟩
    intro recipient hmem
    rcases List.mem_cons.mp hmem with rfl | hmem
    · exact hstart.trans ⟨le_keepLarger_right _ _, le_keepLarger_right _ _⟩
    · exact hrest recipient hmem

theorem covers_worstBy {recipients : List UserRecord} {recipient : UserRecord}
    (h : recipient ∈ recipients) :
    Covers size (worstBy size recipients) (recipientVars recipient) :=
  (covers_foldl recipients _).2 recipient h

theorem fallback_le_worstBy (recipients : List UserRecord) :
    size RECIPIENT_NAME_FALLBACK ≤ size (worstBy size recipients).name :=
  (covers_foldl recipients ⟨RECIPIENT_NAME_FALLBACK, []⟩).1.name

end Worst

/-! ## Parts -/

section Parts

variable {prepared : Prepared} {request : MassEmailRequest} {recipient worst : RecipientVars}

theorem copyVars_le {size : List Char → ℕ} (h : Covers size worst recipient) (name : List Char) :
    ∀ text, prepared.merged (copyVars request recipient) name = some text →
      ∃ text', prepared.merged (copyVars request worst) name = some text' ∧
        (text = text' ∨ name ∉ MASS_RAW_HTML_VARS ∧ size text ≤ size text') := by
  intro text htext
  by_cases hname : name = "recipient_name".toList
  · subst hname
    simp only [Prepared.merged, copyVars, if_true, Option.some_or, Option.some.injEq] at htext ⊢
    exact ⟨worst.name, rfl, .inr ⟨by decide, htext ▸ h.name⟩⟩
  by_cases hemail : name = "recipient_email".toList
  · subst hemail
    have hne : "recipient_email".toList ≠ "recipient_name".toList := by decide
    simp only [Prepared.merged, copyVars, hne, if_true, if_false, Option.some_or,
      Option.some.injEq] at htext ⊢
    exact ⟨worst.email, rfl, .inr ⟨by decide, htext ▸ h.email⟩⟩
  · refine ⟨text, ?_, .inl rfl⟩
    rw [← htext]
    simp only [Prepared.merged, copyVars, hname, hemail, if_false]

/-- A part grows with the values put into it. -/
theorem interpolate_le {vars vars' : TemplateVars} {escape : Bool} {rawNames : List (List Char)}
    (template : List Char)
    (h : ∀ name, utf8Bytes (valueOf vars escape rawNames name) ≤
      utf8Bytes (valueOf vars' escape rawNames name)) :
    utf8Bytes (interpolate template vars escape rawNames) ≤
      utf8Bytes (interpolate template vars' escape rawNames) :=
  weight_replace_le template fun found => h found.name

theorem valueOf_plain_le (h : Covers utf8Bytes worst recipient) (name : List Char) :
    utf8Bytes (valueOf (prepared.merged (copyVars request recipient)) false [] name) ≤
      utf8Bytes (valueOf (prepared.merged (copyVars request worst)) false [] name) := by
  unfold valueOf
  split
  · exact le_rfl
  · cases htext : prepared.merged (copyVars request recipient) name with
    | none => simp
    | some text =>
      obtain ⟨text', htext', hle⟩ := copyVars_le h name text htext
      rw [htext']
      rcases hle with rfl | ⟨-, hle⟩
      · exact le_rfl
      · simpa using hle

theorem valueOf_escaped_le (h : Covers escapedBytes worst recipient) (name : List Char) :
    utf8Bytes (valueOf (prepared.merged (copyVars request recipient)) true MASS_RAW_HTML_VARS
        name) ≤
      utf8Bytes (valueOf (prepared.merged (copyVars request worst)) true MASS_RAW_HTML_VARS
        name) := by
  unfold valueOf
  split
  · exact le_rfl
  · cases htext : prepared.merged (copyVars request recipient) name with
    | none => simp
    | some text =>
      obtain ⟨text', htext', hle⟩ := copyVars_le h name text htext
      rw [htext']
      rcases hle with rfl | ⟨hraw, hle⟩
      · exact le_rfl
      · simpa [hraw, escapedBytes] using hle

/-- The subject and the text of a copy, against a larger copy. -/
theorem rendering_plain_le (h : Covers utf8Bytes worst recipient) :
    utf8Bytes (prepared.rendering (copyVars request recipient)).subject ≤
        utf8Bytes (prepared.rendering (copyVars request worst)).subject ∧
      utf8Bytes (prepared.rendering (copyVars request recipient)).text ≤
        utf8Bytes (prepared.rendering (copyVars request worst)).text :=
  ⟨interpolate_le _ (valueOf_plain_le h), interpolate_le _ (valueOf_plain_le h)⟩

/-- The HTML of a copy, against a larger copy. -/
theorem rendering_html_le (h : Covers escapedBytes worst recipient) :
    utf8Bytes (prepared.rendering (copyVars request recipient)).html ≤
      utf8Bytes (prepared.rendering (copyVars request worst)).html :=
  interpolate_le _ (valueOf_escaped_le h)

/-- A copy is the rendering under the recipient's name or under the fallback. -/
theorem renderFor_eq_ok {fallback : List Char} {copy : RenderedEmail}
    (h : renderFor prepared request recipient fallback = .ok copy) :
    ∃ name, (name = recipient.name ∨ name = fallback) ∧
      copy = prepared.rendering (copyVars request ⟨name, recipient.email⟩) := by
  have hrender {vars : TemplateVars} (hok : prepared.render vars = .ok copy) :
      copy = prepared.rendering vars := by
    unfold Prepared.render at hok
    cases hpolicy : prepared.policy (prepared.merged vars) with
    | error failure =>
      rw [hpolicy] at hok
      cases hok
    | ok _ =>
      rw [hpolicy] at hok
      cases hok
      rfl
  simp only [renderFor] at h
  split at h
  · split at h
    · cases h
    · exact ⟨fallback, .inr rfl, hrender h⟩
  · exact ⟨recipient.name, .inl rfl, hrender h⟩

end Parts

/-! ## Plans -/

section Plans

variable {limits : Limits} {prepared : Prepared} {request : MassEmailRequest}
  {recipients : List UserRecord} {recipient : UserRecord} {copy : RenderedEmail}

/-- The sizing copy of a worst case is at least as large in its values. -/
theorem exists_of_sizing {worst : RecipientVars} (h : sizing prepared request worst = .ok copy) :
    ∃ vars : RecipientVars, copy = prepared.rendering (copyVars request vars) ∧
      vars.email = worst.email ∧ utf8Bytes worst.name ≤ utf8Bytes vars.name ∧
      escapedBytes worst.name ≤ escapedBytes vars.name := by
  unfold sizing at h
  cases hrender : renderFor prepared request worst (inertLike worst.name) with
  | error failure =>
    rw [hrender] at h
    cases h
  | ok rendered =>
    rw [hrender] at h
    cases h
    obtain ⟨name, hname, rfl⟩ := renderFor_eq_ok hrender
    refine ⟨_, rfl, rfl, ?_⟩
    rcases hname with rfl | rfl
    · exact ⟨le_rfl, le_rfl⟩
    · simp [utf8Bytes_le_escaped]

/-- A recipient's copy is no larger than the two sizing copies, part by part. -/
theorem copyBytes_le {plain escaped : RenderedEmail}
    (hplain : sizing prepared request (worstBy utf8Bytes recipients) = .ok plain)
    (hescaped : sizing prepared request (worstBy escapedBytes recipients) = .ok escaped)
    (hmem : recipient ∈ recipients) (hcopy : copyFor prepared request recipient = .ok copy) :
    copyBytes copy ≤ worstCaseBytes plain escaped := by
  obtain ⟨plainVars, rfl, hplainEmail, hplainName, -⟩ := exists_of_sizing hplain
  obtain ⟨escapedVars, rfl, hescapedEmail, -, hescapedName⟩ := exists_of_sizing hescaped
  obtain ⟨name, hname, rfl⟩ := renderFor_eq_ok hcopy
  have hcovered (size : List Char → ℕ) : Covers size (worstBy size recipients)
      ⟨name, (recipientVars recipient).email⟩ := by
    have hrecipient := @covers_worstBy size recipients recipient hmem
    refine ⟨?_, hrecipient.email⟩
    rcases hname with rfl | rfl
    · exact hrecipient.name
    · exact fallback_le_worstBy recipients
  have hplainCovers : Covers utf8Bytes plainVars ⟨name, (recipientVars recipient).email⟩ :=
    Covers.trans ⟨hplainName, by rw [hplainEmail]⟩ (hcovered utf8Bytes)
  have hescapedCovers : Covers escapedBytes escapedVars
      ⟨name, (recipientVars recipient).email⟩ :=
    Covers.trans ⟨hescapedName, by rw [hescapedEmail]⟩ (hcovered escapedBytes)
  obtain ⟨hsubject, htext⟩ := @rendering_plain_le prepared request _ _ hplainCovers
  have hhtml := @rendering_html_le prepared request _ _ hescapedCovers
  unfold copyBytes worstCaseBytes
  omega

variable {plan : CampaignPlan}

/-- What a successful plan was computed from. -/
theorem exists_of_plan (h : planCampaign limits prepared request recipients = .ok plan) :
    ∃ plain escaped, sizing prepared request (worstBy utf8Bytes recipients) = .ok plain ∧
      sizing prepared request (worstBy escapedBytes recipients) = .ok escaped ∧
      plan.messageBytes = worstCaseBytes plain escaped ∧
      plan.messageBytes + MASS_EMAIL_ROW_OVERHEAD_BYTES ≤ MASS_EMAIL_CHUNK_BYTES ∧
      plan.totalBytes = plan.messageBytes * recipients.length ∧
      (0 < limits.maxMassEmailBytes → plan.totalBytes ≤ limits.maxMassEmailBytes) ∧
      plan.perChunk = max 1 (min (max 1 limits.chunkRecipients)
        (MASS_EMAIL_CHUNK_BYTES / (plan.messageBytes + MASS_EMAIL_ROW_OVERHEAD_BYTES))) := by
  unfold planCampaign at h
  simp only [worstCaseRecipients] at h
  cases hplain : sizing prepared request (worstBy utf8Bytes recipients) with
  | error failure =>
    rw [hplain] at h
    cases h
  | ok plain =>
    cases hescaped : sizing prepared request (worstBy escapedBytes recipients) with
    | error failure =>
      rw [hplain, hescaped] at h
      cases h
    | ok escaped =>
      rw [hplain, hescaped] at h
      simp only [bind, Except.bind, pure, Except.pure, throw, throwThe, MonadExceptOf.throw] at h
      split at h
      · cases h
      · rename_i hrow
        split at h
        · cases h
        · rename_i htotal
          cases h
          refine ⟨plain, escaped, rfl, rfl, rfl, not_lt.mp hrow, rfl, fun hlimit => ?_, rfl⟩
          exact not_lt.mp fun hover => htotal ⟨hlimit, hover⟩

theorem sum_map_le {A : Type} {f : A → ℕ} {bound : ℕ} {xs : List A} (h : ∀ a ∈ xs, f a ≤ bound) :
    (xs.map f).sum ≤ xs.length * bound := by
  induction xs with
  | nil => simp
  | cons a xs ih =>
    obtain ⟨ha, hxs⟩ := List.forall_mem_cons.mp h
    have hrest := ih hxs
    simp only [List.map_cons, List.sum_cons, List.length_cons, Nat.add_mul, Nat.one_mul]
    omega

/-- The copies of recipients that the link policy does not refuse. -/
def copiesOf (prepared : Prepared) (request : MassEmailRequest) (recipients : List UserRecord) :
    List RenderedEmail :=
  recipients.filterMap fun recipient => (copyFor prepared request recipient).toOption

/-- What a chunk of copies takes in the outbox. -/
def chunkBytes (copies : List RenderedEmail) : ℕ :=
  (copies.map fun copy => copyBytes copy + MASS_EMAIL_ROW_OVERHEAD_BYTES).sum

/-- A chunk within the limits of one transaction. -/
structure Fits (limits : Limits) (prepared : Prepared) (request : MassEmailRequest)
    (chunk : List UserRecord) : Prop where
  length : chunk.length ≤ max 1 limits.chunkRecipients
  bytes : chunkBytes (copiesOf prepared request chunk) ≤ MASS_EMAIL_CHUNK_BYTES

theorem copyBytes_le_of_plan (h : planCampaign limits prepared request recipients = .ok plan)
    {some_ : List UserRecord} (hsub : some_ ⊆ recipients) :
    ∀ copy ∈ copiesOf prepared request some_, copyBytes copy ≤ plan.messageBytes := by
  obtain ⟨plain, escaped, hplain, hescaped, hmessage, -⟩ := exists_of_plan h
  intro copy hmem
  obtain ⟨recipient, hrecipient, hok⟩ := List.mem_filterMap.mp hmem
  cases hrendered : copyFor prepared request recipient with
  | error failure =>
    rw [hrendered] at hok
    cases hok
  | ok rendered =>
    rw [hrendered] at hok
    cases hok
    rw [hmessage]
    exact copyBytes_le hplain hescaped (hsub hrecipient) hrendered

theorem perChunk_pos (h : planCampaign limits prepared request recipients = .ok plan) :
    0 < plan.perChunk := by
  obtain ⟨_, _, _, _, _, _, _, _, hper⟩ := exists_of_plan h
  omega

theorem fits_of_plan (h : planCampaign limits prepared request recipients = .ok plan)
    {chunk : List UserRecord} (hchunk : chunk ∈ slices plan.perChunk recipients) :
    Fits limits prepared request chunk := by
  obtain ⟨_, _, _, _, _, hrow, _, _, hper⟩ := exists_of_plan h
  have hlength := length_of_mem_slices hchunk
  refine ⟨by omega, ?_⟩
  have hfits : plan.perChunk * (plan.messageBytes + MASS_EMAIL_ROW_OVERHEAD_BYTES) ≤
      MASS_EMAIL_CHUNK_BYTES := by
    have hdiv := Nat.div_mul_le_self MASS_EMAIL_CHUNK_BYTES
      (plan.messageBytes + MASS_EMAIL_ROW_OVERHEAD_BYTES)
    have hpos : 0 < MASS_EMAIL_CHUNK_BYTES /
        (plan.messageBytes + MASS_EMAIL_ROW_OVERHEAD_BYTES) :=
      Nat.div_pos hrow (by simp [MASS_EMAIL_ROW_OVERHEAD_BYTES])
    have hle : plan.perChunk ≤ MASS_EMAIL_CHUNK_BYTES /
        (plan.messageBytes + MASS_EMAIL_ROW_OVERHEAD_BYTES) := by omega
    exact (Nat.mul_le_mul_right _ hle).trans hdiv
  have hrows : ∀ copy ∈ copiesOf prepared request chunk,
      copyBytes copy + MASS_EMAIL_ROW_OVERHEAD_BYTES ≤
        plan.messageBytes + MASS_EMAIL_ROW_OVERHEAD_BYTES := fun copy hmem =>
    Nat.add_le_add_right (copyBytes_le_of_plan h (mem_of_mem_slices (perChunk_pos h) hchunk) copy
      hmem) _
  have hcount : (copiesOf prepared request chunk).length ≤ plan.perChunk :=
    (List.length_filterMap_le _ _).trans hlength
  exact (sum_map_le hrows).trans ((Nat.mul_le_mul_right _ hcount).trans hfits)

theorem recipients_le_of_check (h : checkRecipients limits recipients = .ok ())
    (hlimit : 0 < limits.maxMassEmailRecipients) :
    recipients.length ≤ limits.maxMassEmailRecipients := by
  unfold checkRecipients at h
  split at h
  · cases h
  · split at h
    · cases h
    · rename_i hmany
      exact not_lt.mp fun hover => hmany ⟨hlimit, hover⟩

/-- What a campaign that was planned puts into the outbox stays within all its
limits: every copy within the size the campaign is charged by, every chunk within
its rows and its bytes, and the whole within the ceilings. -/
theorem within_of_planCampaign {plan : CampaignPlan}
    (hrecipients : checkRecipients limits recipients = .ok ())
    (hplan : planCampaign limits prepared request recipients = .ok plan) :
    (∀ copy ∈ copiesOf prepared request recipients, copyBytes copy ≤ plan.messageBytes) ∧
      (slices plan.perChunk recipients).flatten = recipients ∧
      (∀ chunk ∈ slices plan.perChunk recipients, Fits limits prepared request chunk) ∧
      (0 < limits.maxMassEmailRecipients → recipients.length ≤ limits.maxMassEmailRecipients) ∧
      (0 < limits.maxMassEmailBytes →
        ((copiesOf prepared request recipients).map copyBytes).sum ≤ limits.maxMassEmailBytes) := by
  have hcopies := copyBytes_le_of_plan hplan (List.Subset.refl recipients)
  refine ⟨hcopies, flatten_slices (perChunk_pos hplan) recipients, fun _ => fits_of_plan hplan,
    recipients_le_of_check hrecipients, fun hlimit => ?_⟩
  obtain ⟨_, _, _, _, _, _, htotal, hbytes, _⟩ := exists_of_plan hplan
  have hcount : (copiesOf prepared request recipients).length ≤ recipients.length :=
    List.length_filterMap_le _ _
  calc ((copiesOf prepared request recipients).map copyBytes).sum
      ≤ (copiesOf prepared request recipients).length * plan.messageBytes := sum_map_le hcopies
    _ ≤ recipients.length * plan.messageBytes := Nat.mul_le_mul_right _ hcount
    _ = plan.totalBytes := by rw [htotal, Nat.mul_comm]
    _ ≤ limits.maxMassEmailBytes := hbytes hlimit

def root : Uuid := ⟨"r".toList, by decide⟩

def ann : UserRecord :=
  ⟨⟨"a".toList, by decide⟩, "a@x".toList, "A & http://x".toList, .client, .active, none⟩

/-- Whose name takes the most room escaped, and is refused. -/
def ben : UserRecord :=
  ⟨⟨"b".toList, by decide⟩, "b@x".toList, "<<<<<<".toList, .client, .active, none⟩

def greeting : MassEmailRequest :=
  ⟨"Hi".toList, "<b>".toList, [], { scope := .all }, some "k:1".toList⟩

/-- A template with the name in it, and a policy that refuses some names. -/
def greetingTemplate : Prepared where
  content := ⟨"{{subject}}".toList, "{{recipient_name}}{{body_html}}".toList, []⟩
  common _ := none
  policy vars :=
    if (vars "recipient_name".toList).any ('<' ∈ ·) then .error .linkPolicy else .ok ()

def ceilings : Limits := ⟨2, 100, 1, 1⟩

theorem within_of_planCampaign_ann :
    ∃ plan, planCampaign ceilings greetingTemplate greeting [ann, ben] = .ok plan ∧
      (∀ copy ∈ copiesOf greetingTemplate greeting [ann, ben],
        copyBytes copy ≤ plan.messageBytes) ∧
      (slices plan.perChunk [ann, ben]).flatten = [ann, ben] ∧
      (∀ chunk ∈ slices plan.perChunk [ann, ben],
        Fits ceilings greetingTemplate greeting chunk) ∧
      (0 < 2 → [ann, ben].length ≤ 2) ∧
      (0 < 100 → ((copiesOf greetingTemplate greeting [ann, ben]).map copyBytes).sum ≤ 100) := by
  have hplan : planCampaign ceilings greetingTemplate greeting [ann, ben] =
      .ok ⟨29, 58, 1⟩ := by
    decide +kernel
  exact ⟨_, hplan, within_of_planCampaign rfl hplan⟩

end Plans

end FerrumNexus.Campaigns
