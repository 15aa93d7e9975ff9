import FerrumNexus.Email.TemplateLinks
import FerrumNexus.Sequences.Matching
import FerrumNexus.Email.Templates
import FerrumNexus.Sequences.Windows

/-!
# The copies of a campaign

A campaign sends each recipient a copy of its own, rendered with the name and
the address of that recipient. Any account may choose its name, so every
explicit URL in it is replaced and every control character is a space. What the
link policy makes of a rendering is a parameter. Before anything is queued, the
largest copy is measured, and the campaign is refused or cut into chunks by it.
-/
namespace FerrumNexus.Campaigns

open Email Sequences Platform Network

/-! ## Names -/

/-- What follows `https?:`. -/
def afterScheme (text : List Char) : Option (List Char) :=
  if lower (text.take 5) = "http:".toList then some (text.drop 5)
  else if lower (text.take 6) = "https:".toList then some (text.drop 6)
  else none

/-- `TEXT_URL`. -/
def textUrl : Pattern Char Unit := fun text =>
  (afterScheme text).bind fun rest => (slashesLength rest).map fun length =>
    ((), text.length - rest.length + length)

def RECIPIENT_NAME_URL_PLACEHOLDER : List Char := "[link removed]".toList

def RECIPIENT_NAME_FALLBACK : List Char := "there".toList

def neutralRecipientName (name : List Char) : List Char :=
  replace textUrl (fun _ => RECIPIENT_NAME_URL_PLACEHOLDER) (spaced name)

/-! ## Where a URL stands -/

/-- `http:` or `https:`, in either case. -/
def IsScheme (scheme : List Char) : Prop :=
  lower scheme = "http:".toList ∨ lower scheme = "https:".toList

variable {opening scheme text : List Char}

theorem IsScheme.of_take {n : ℕ} (h : lower (text.take n) = scheme)
    (hscheme : scheme = "http:".toList ∨ scheme = "https:".toList) :
    ∃ front, IsScheme front ∧ text = front ++ text.drop n := by
  refine ⟨text.take n, ?_, (List.take_append_drop n text).symm⟩
  rw [IsScheme, h]
  exact hscheme

theorem afterScheme_of_append (h : IsScheme scheme) (rest : List Char) :
    afterScheme (scheme ++ rest) = some rest := by
  have hlength : (lower scheme).length = scheme.length := List.length_map _
  rcases h with h | h
  · have hfive : scheme.length = 5 := by rw [← hlength, h]; rfl
    have htake : (scheme ++ rest).take 5 = scheme := List.take_left' hfive
    have hdrop : (scheme ++ rest).drop 5 = rest := List.drop_left' hfive
    simp only [afterScheme, htake, h, if_true, hdrop]
  · have hsix : scheme.length = 6 := by rw [← hlength, h]; rfl
    have htake : (scheme ++ rest).take 6 = scheme := List.take_left' hsix
    have hdrop : (scheme ++ rest).drop 6 = rest := List.drop_left' hsix
    have hshort : lower ((scheme ++ rest).take 5) = "https".toList := by
      rw [List.take_append_of_le_length (by omega), lower, List.map_take]
      change (lower scheme).take 5 = _
      rw [h]
      rfl
    have hne : "https".toList ≠ "http:".toList := by decide
    simp only [afterScheme, hshort, hne, htake, h, if_true, if_false, hdrop]

theorem afterScheme_eq_some {rest : List Char} :
    afterScheme text = some rest ↔ ∃ scheme, IsScheme scheme ∧ text = scheme ++ rest := by
  constructor
  · intro h
    simp only [afterScheme] at h
    split at h
    · rename_i hhttp
      cases h
      exact IsScheme.of_take hhttp (.inl rfl)
    · split at h
      · rename_i hhttps
        cases h
        exact IsScheme.of_take hhttps (.inr rfl)
      · cases h
  · rintro ⟨scheme, hscheme, rfl⟩
    exact afterScheme_of_append hscheme rest

theorem slashesLength_ne_none :
    slashesLength text ≠ none ↔
      ∃ a b c rest, text = a :: b :: c :: rest ∧ isSlash a ∧ isSlash b ∧ isUrlCharacter c := by
  constructor
  · intro h
    match text with
    | [] => exact absurd rfl h
    | [_] => exact absurd rfl h
    | a :: b :: rest =>
      simp only [slashesLength] at h
      split at h
      · rename_i hslashes
        obtain ⟨ha, hb, hbody⟩ := hslashes
        cases rest with
        | nil => exact absurd rfl hbody
        | cons c rest =>
          refine ⟨a, b, c, rest, rfl, ha, hb, ?_⟩
          by_contra hc
          simp [hc] at hbody
      · exact absurd rfl h
  · rintro ⟨a, b, c, rest, rfl, ha, hb, hc⟩
    simp [slashesLength, ha, hb, hc]

/-- A scheme and two slashes. -/
def IsOpening (opening : List Char) : Prop :=
  ∃ scheme a b, IsScheme scheme ∧ isSlash a ∧ isSlash b ∧ opening = scheme ++ [a, b]

theorem textUrl_ne_none :
    textUrl text ≠ none ↔
      ∃ opening c rest, IsOpening opening ∧ isUrlCharacter c ∧ text = opening ++ c :: rest := by
  constructor
  · intro h
    obtain ⟨found, hfound⟩ := Option.ne_none_iff_exists'.mp h
    simp only [textUrl, Option.bind_eq_some_iff, Option.map_eq_some_iff] at hfound
    obtain ⟨rest, hscheme, length, hlength, -⟩ := hfound
    obtain ⟨scheme, hfront, rfl⟩ := afterScheme_eq_some.mp hscheme
    obtain ⟨a, b, c, rest', rfl, ha, hb, hc⟩ :=
      slashesLength_ne_none.mp (Option.ne_none_iff_exists'.mpr ⟨length, hlength⟩)
    exact ⟨scheme ++ [a, b], c, rest', ⟨scheme, a, b, hfront, ha, hb, rfl⟩, hc, by simp⟩
  · rintro ⟨opening, c, rest, ⟨scheme, a, b, hscheme, ha, hb, rfl⟩, hc, rfl⟩
    have hafter := afterScheme_eq_some.mpr
      ⟨scheme, hscheme, List.append_assoc scheme [a, b] (c :: rest)⟩
    obtain ⟨length, hlength⟩ := Option.ne_none_iff_exists'.mp (slashesLength_ne_none.mpr
      ⟨a, b, c, rest, rfl, ha, hb, hc⟩)
    rw [textUrl, hafter, Option.bind_some]
    change Option.map _ (slashesLength (a :: b :: c :: rest)) ≠ none
    rw [hlength]
    exact Option.some_ne_none _

/-! ## A neutral name -/

theorem toLower_eq_of_mem_scheme (h : IsScheme scheme) {c : Char} (hc : c ∈ scheme) :
    c.toLower ∈ "https:".toList := by
  have hmem : c.toLower ∈ lower scheme := List.mem_map_of_mem hc
  rcases h with h | h
  · rw [h] at hmem
    revert hmem
    simp
    tauto
  · exact h ▸ hmem

theorem bracket_not_mem_opening (h : IsOpening opening) :
    '[' ∉ opening := by
  obtain ⟨scheme, a, b, hscheme, ha, hb, rfl⟩ := h
  intro hmem
  simp only [List.mem_append, List.mem_cons, List.not_mem_nil, or_false] at hmem
  rcases hmem with hmem | rfl | rfl
  · exact absurd (toLower_eq_of_mem_scheme hscheme hmem) (by decide)
  · exact absurd ha (by decide)
  · exact absurd hb (by decide)

/-- A URL begins with an `h`, which is part of any URL it continues. -/
theorem IsOpening.head (h : IsOpening opening) :
    ∃ c rest, opening = c :: rest ∧ c.toLower = 'h' ∧ isUrlCharacter c := by
  obtain ⟨scheme, a, b, hscheme, -, -, rfl⟩ := h
  cases scheme with
  | nil => rcases hscheme with hscheme | hscheme <;> cases hscheme
  | cons c scheme =>
    have hc : c.toLower = 'h' := by
      rcases hscheme with hscheme | hscheme
      · exact (List.cons.inj hscheme).1
      · exact (List.cons.inj hscheme).1
    refine ⟨c, scheme ++ [a, b], rfl, hc, ?_⟩
    have hbounds : c = 'h' ∨ c = 'H' := by
      unfold Char.toLower at hc
      split at hc
      · right
        rename_i hupper
        have hcode := congrArg Char.toNat hc
        apply Char.ext
        apply UInt32.toNat_inj.mp
        simp only [Char.toNat, UInt32.le_iff_toNat_le] at hcode hupper
        simp at hcode hupper ⊢
        omega
      · exact .inl hc
    rcases hbounds with rfl | rfl <;> decide

theorem toLower_ne_of_mem_placeholder :
    ∀ c ∈ RECIPIENT_NAME_URL_PLACEHOLDER, c.toLower ≠ 'h' := by
  have hall : RECIPIENT_NAME_URL_PLACEHOLDER.all (fun c => c.toLower != 'h') = true := rfl
  simpa using hall

theorem not_isControl_of_mem_placeholder :
    ∀ c ∈ RECIPIENT_NAME_URL_PLACEHOLDER, isControl c = false := by
  have hall : RECIPIENT_NAME_URL_PLACEHOLDER.all (fun c => !isControl c) = true := rfl
  simpa using hall

theorem inert_placeholder : Inert textUrl fun _ : Unit => RECIPIENT_NAME_URL_PLACEHOLDER where
  within _ ys tail hys hne := by
    by_contra hmatch
    obtain ⟨opening, c, rest, hopening, -, htext⟩ := textUrl_ne_none.mp hmatch
    obtain ⟨h, others, rfl, hh, -⟩ := hopening.head
    cases ys with
    | nil => exact hne rfl
    | cons y ys =>
      obtain rfl := (List.cons.inj htext).1
      have hmem : y ∈ RECIPIENT_NAME_URL_PLACEHOLDER := hys.subset List.mem_cons_self
      exact absurd hh (toLower_ne_of_mem_placeholder y hmem)
  behind before ys _ tail hne hys hnone := by
    by_contra hmatch
    obtain ⟨opening, c, rest, hopening, hc, htext⟩ := textUrl_ne_none.mp hmatch
    apply absurd hnone
    apply textUrl_ne_none.mpr
    rcases List.append_eq_append_iff.mp htext with
      ⟨middle, hmiddle, htail⟩ | ⟨middle, hmiddle, htail⟩
    · -- the opening would go on into the stand-in
      cases middle with
      | nil =>
        obtain ⟨opening', c', rest', hopening', hc', rfl⟩ := textUrl_ne_none.mp hys
        obtain ⟨first, others, rfl, -, hfirst⟩ := hopening'.head
        exact ⟨opening, first, _, hopening, hfirst, by rw [hmiddle, List.append_nil]; rfl⟩
      | cons d middle =>
        have hd : d = '[' := (List.cons.inj htail).1.symm
        exact absurd (hmiddle ▸ hd ▸ by simp) (bracket_not_mem_opening hopening)
    · cases middle with
      | nil =>
        obtain ⟨opening', c', rest', hopening', hc', rfl⟩ := textUrl_ne_none.mp hys
        obtain ⟨first, others, rfl, -, hfirst⟩ := hopening'.head
        exact ⟨opening, first, _, hopening, hfirst, by rw [hmiddle, List.append_nil]; rfl⟩
      | cons d middle =>
        obtain ⟨rfl, -⟩ := List.cons.inj htail
        exact ⟨opening, c, middle ++ ys, hopening, hc, by rw [hmiddle]; simp⟩

theorem not_isControl_of_mem_neutral {name : List Char} {c : Char}
    (h : c ∈ neutralRecipientName name) : isControl c = false := by
  rcases mem_replace h with hspaced | ⟨_, hplaceholder⟩
  · obtain ⟨d, -, rfl⟩ := List.mem_map.mp hspaced
    split
    · decide
    · rename_i hd
      simpa using hd
  · exact not_isControl_of_mem_placeholder c hplaceholder

theorem spaced_neutral (name : List Char) :
    spaced (neutralRecipientName name) = neutralRecipientName name := by
  have hsame : ∀ c ∈ neutralRecipientName name, (if isControl c then ' ' else c) = c := by
    intro c hc
    simp [not_isControl_of_mem_neutral hc]
  rw [spaced, List.map_congr_left hsame, List.map_id']

/-- Nothing is left in a neutral name that the check of the rendered text would
look at, and a neutral name stays as it is. -/
theorem neutralRecipientName_inert (name : List Char) :
    matchAll textUrl (spaced (neutralRecipientName name)) = [] ∧
      neutralRecipientName (neutralRecipientName name) = neutralRecipientName name := by
  have hnone : matchAll textUrl (neutralRecipientName name) = [] :=
    matchAll_replace_eq_nil inert_placeholder (spaced name)
  refine ⟨by rw [spaced_neutral, hnone], ?_⟩
  conv_lhs => rw [neutralRecipientName, spaced_neutral]
  exact replace_of_matchAll_eq_nil hnone _

/-! ## Accounts and requests -/

/-- An id, which is a UUID: of its form only that it has no colon matters. -/
structure Uuid where
  text : List Char
  plain : ':' ∉ text
  deriving DecidableEq

structure UserRecord where
  id : Uuid
  email : List Char
  displayName : List Char
  role : Role
  status : UserStatus
  orgId : Option Uuid
  deriving DecidableEq

inductive AudienceScope
  | all
  | filtered
  | explicit
  deriving DecidableEq, Repr

structure MassEmailAudience where
  scope : AudienceScope
  roles : Option (List Role) := none
  status : Option UserStatus := none
  orgId : Option Uuid := none
  userIds : Option (List Uuid) := none
  deriving DecidableEq

structure MassEmailRequest where
  subject : List Char
  bodyHtml : List Char
  bodyText : List Char
  audience : MassEmailAudience
  idempotencyKey : Option (List Char) := none
  deriving DecidableEq

/-- What differs between the copies. -/
structure RecipientVars where
  name : List Char
  email : List Char
  deriving DecidableEq

/-! ## Rendering -/

/-- Why a rendering is refused. -/
inductive RenderFailure
  | linkPolicy
  | other
  deriving DecidableEq, Repr

def MASS_RAW_HTML_VARS : List (List Char) := ["body_html".toList]

/-- What `prepareRenderer` read: the template, the variables of every template,
and what the link policy makes of a rendering with all its variables. Template
and branding are two reads in the source, taken as one here. -/
structure Prepared where
  content : EmailTemplateContent
  common : TemplateVars
  policy : TemplateVars → Except RenderFailure Unit

/-- `{ ...common, ...vars }` -/
def Prepared.merged (prepared : Prepared) (vars : TemplateVars) : TemplateVars :=
  fun name => (vars name).or (prepared.common name)

/-- The rendering, before the link policy looks at it. -/
def Prepared.rendering (prepared : Prepared) (vars : TemplateVars) : RenderedEmail :=
  renderTemplate prepared.content (prepared.merged vars) MASS_RAW_HTML_VARS

def Prepared.render (prepared : Prepared) (vars : TemplateVars) :
    Except RenderFailure RenderedEmail := do
  prepared.policy (prepared.merged vars)
  pure (prepared.rendering vars)

def copyVars (request : MassEmailRequest) (recipient : RecipientVars) : TemplateVars := fun name =>
  if name = "recipient_name".toList then some recipient.name
  else if name = "recipient_email".toList then some recipient.email
  else if name = "subject".toList then some (trimmed request.subject)
  else if name = "body_html".toList then some request.bodyHtml
  else if name = "body_text".toList then some request.bodyText
  else none

/-- A copy the link policy refuses is rendered again under the fallback name. -/
def renderFor (prepared : Prepared) (request : MassEmailRequest) (recipient : RecipientVars)
    (fallback : List Char := RECIPIENT_NAME_FALLBACK) : Except RenderFailure RenderedEmail :=
  match prepared.render (copyVars request recipient) with
  | .error .linkPolicy =>
    if recipient.name = fallback then .error .linkPolicy
    else prepared.render (copyVars request { recipient with name := fallback })
  | result => result

/-- What a recipient's copy is rendered from. -/
def recipientVars (recipient : UserRecord) : RecipientVars :=
  ⟨neutralRecipientName recipient.displayName, recipient.email⟩

/-- The copy of one recipient. -/
def copyFor (prepared : Prepared) (request : MassEmailRequest) (recipient : UserRecord) :
    Except RenderFailure RenderedEmail :=
  renderFor prepared request (recipientVars recipient)

/-! ## Sizes -/

def utf8Bytes (value : List Char) : ℕ := weight Char.utf8Size value

def copyBytes (copy : RenderedEmail) : ℕ :=
  utf8Bytes copy.subject + utf8Bytes copy.html + utf8Bytes copy.text

/-- The larger of the two renderings, part by part. -/
def worstCaseBytes (plain escaped : RenderedEmail) : ℕ :=
  max (utf8Bytes plain.subject) (utf8Bytes escaped.subject) +
    max (utf8Bytes plain.html) (utf8Bytes escaped.html) +
    max (utf8Bytes plain.text) (utf8Bytes escaped.text)

/-- The first of the largest values so far. -/
def keepLarger (size : List Char → ℕ) (most value : List Char) : List Char :=
  if size most < size value then value else most

def escapedBytes (value : List Char) : ℕ := utf8Bytes (escapeHtml value)

/-- The largest name and the largest address, each on its own. -/
def worstBy (size : List Char → ℕ) (recipients : List UserRecord) : RecipientVars :=
  recipients.foldl (fun worst recipient =>
    { name := keepLarger size worst.name (neutralRecipientName recipient.displayName)
      email := keepLarger size worst.email recipient.email })
    ⟨RECIPIENT_NAME_FALLBACK, []⟩

/-- The values largest as they are, and largest escaped. -/
def worstCaseRecipients (recipients : List UserRecord) : RecipientVars × RecipientVars :=
  (worstBy utf8Bytes recipients, worstBy escapedBytes recipients)

/-- A name as large as `name` is, escaped or not. -/
def inertLike (name : List Char) : List Char := List.replicate (escapedBytes name) 'x'

/-! ## Plans -/

def MASS_EMAIL_CHUNK_RECIPIENTS : ℕ := 200

def MASS_EMAIL_CHUNK_BYTES : ℕ := 4 * 1024 * 1024

def MASS_EMAIL_ROW_OVERHEAD_BYTES : ℕ := 1024

/-- The limits of the configuration; 0 is none, except for the chunks. -/
structure Limits where
  maxMassEmailRecipients : ℕ
  maxMassEmailBytes : ℕ
  maxMassEmailsPerDay : ℕ
  chunkRecipients : ℕ := MASS_EMAIL_CHUNK_RECIPIENTS

/-- Why a campaign is refused before anything is written. -/
inductive Refusal
  | subjectRequired
  | bodyRequired
  | recipientRequired
  | nobody
  | tooManyRecipients (limit recipients : ℕ)
  | rendering (failure : RenderFailure)
  | messageTooLarge (limit messageBytes : ℕ)
  | tooManyBytes (limit bytes messageBytes recipients : ℕ)
  deriving DecidableEq, Repr

structure CampaignPlan where
  messageBytes : ℕ
  totalBytes : ℕ
  perChunk : ℕ
  deriving DecidableEq, Repr

/-- The checks of the request on its own. -/
def checkRequest (request : MassEmailRequest) : Except Refusal Unit :=
  if trimmed request.subject = [] then .error .subjectRequired
  else if trimmed request.bodyHtml = [] ∧ trimmed request.bodyText = [] then .error .bodyRequired
  else .ok ()

/-- The checks of the audience. -/
def checkRecipients (limits : Limits) (recipients : List UserRecord) : Except Refusal Unit :=
  if recipients = [] then .error .nobody
  else if 0 < limits.maxMassEmailRecipients ∧ limits.maxMassEmailRecipients < recipients.length then
    .error (.tooManyRecipients limits.maxMassEmailRecipients recipients.length)
  else .ok ()

/-- The copy that sizes the campaign, of a worst case. -/
def sizing (prepared : Prepared) (request : MassEmailRequest) (worst : RecipientVars) :
    Except Refusal RenderedEmail :=
  (renderFor prepared request worst (inertLike worst.name)).mapError .rendering

def planCampaign (limits : Limits) (prepared : Prepared) (request : MassEmailRequest)
    (recipients : List UserRecord) : Except Refusal CampaignPlan := do
  let worst := worstCaseRecipients recipients
  let plain ← sizing prepared request worst.1
  let escaped ← sizing prepared request worst.2
  let messageBytes := worstCaseBytes plain escaped
  let rowBytes := messageBytes + MASS_EMAIL_ROW_OVERHEAD_BYTES
  if MASS_EMAIL_CHUNK_BYTES < rowBytes then
    throw (.messageTooLarge (MASS_EMAIL_CHUNK_BYTES - MASS_EMAIL_ROW_OVERHEAD_BYTES) messageBytes)
  let totalBytes := messageBytes * recipients.length
  if 0 < limits.maxMassEmailBytes ∧ limits.maxMassEmailBytes < totalBytes then
    throw (.tooManyBytes limits.maxMassEmailBytes totalBytes messageBytes recipients.length)
  pure
    { messageBytes := messageBytes
      totalBytes := totalBytes
      perChunk := max 1 (min (max 1 limits.chunkRecipients) (MASS_EMAIL_CHUNK_BYTES / rowBytes)) }

end FerrumNexus.Campaigns
