import FerrumNexus.Access.Books

/-!
# What the books show

Nobody holds what nobody asked for, and the audit rows account for every
request and every grant. Both follow entry by entry.
-/
namespace FerrumNexus.Access

open Platform Portal

namespace Books

variable {b b' : Books} {id : ℕ}

/-- Somebody asked for this tool: in the request the grant was made from, or
in one for more tools on it. -/
def AskedFor (b : Books) (grant : GrantRecord) (tool : ℕ) : Prop :=
  ∃ requestId request, b.requests requestId = some request ∧
    (grant.accessRequestId = some requestId ∧
        (∀ asked, request.requestedTools = some asked → tool ∈ asked) ∨
      request.grantId = some grant.id ∧ tool ∈ request.requestedTools.getD [])

/-- The grant was made from a request for access of its own identity, and covers
no more than was asked for. -/
structure Asked (b : Books) (grant : GrantRecord) : Prop where
  origin : ∃ requestId request, grant.accessRequestId = some requestId ∧
    b.requests requestId = some request ∧ request.grantId = none ∧ request.apiId = grant.apiId ∧
    request.identity = grant.identity ∧
    (grant.approvedTools = none → request.requestedTools = none)
  tools : ∀ tools, grant.approvedTools = some tools → ∀ tool ∈ tools, b.AskedFor grant tool

/-- A request for more tools is about a grant of its own identity. -/
def Extends (b : Books) (request : AccessRequestRecord) : Prop :=
  ∀ grantId, request.grantId = some grantId → ∃ grant, b.grants grantId = some grant ∧
    grant.apiId = request.apiId ∧ grant.identity = request.identity

structure Justified (b : Books) : Prop where
  asked : ∀ id grant, b.grants id = some grant → b.Asked grant
  extended : ∀ id request, b.requests id = some request → b.Extends request

/-- The audit rows account for the two other tables. -/
structure Balanced (b : Books) : Prop where
  asked : ∀ id, b.noted .accessRequest id + b.noted .accessToolsRequest id =
    if (b.requests id).isSome then 1 else 0
  askedAs : ∀ id request, b.requests id = some request → b.noted (askedAs request) id = 1
  granted : ∀ id, b.noted .accessApprove id = b.grantsFrom id
  denied : ∀ id, b.noted .accessDeny id =
    if (b.requests id).any (·.status == .denied) then 1 else 0
  cancelled : ∀ id request, b.requests id = some request → request.status = .cancelled →
    request.decidedBy.isSome = true → 0 < b.noted .accessCancel id
  undecided : ∀ id request, b.requests id = some request → request.status = .pending →
    request.decidedBy = none
  revoked : ∀ id grant, b.grants id = some grant → grant.status = .revoked →
    0 < b.noted .accessRevoke id

structure Orderly (b : Books) : Prop where
  sole : b.Sole
  justified : b.Justified
  balanced : b.Balanced

/-! ## Nobody gets what nobody asked for -/

variable {grant' new old : GrantRecord} {request : AccessRequestRecord} {fresh requestId : ℕ}

theorem AskedFor.kept {grant : GrantRecord} {tool : ℕ} (h : b.AskedFor grant tool)
    (hk : b.Kept b') (hsame : SameGrant grant grant') : b'.AskedFor grant' tool := by
  obtain ⟨requestId, request, hr, hasked⟩ := h
  obtain ⟨request', hr', hsame', -⟩ := hk.requests requestId request hr
  refine ⟨requestId, request', hr', ?_⟩
  rw [hsame.1, hsame.2.2.2, hsame'.2.2.2.1, hsame'.2.2.2.2]
  exact hasked

theorem Asked.kept {grant : GrantRecord} (h : b.Asked grant) (hk : b.Kept b')
    (hsame : SameGrant grant grant') (htools : grant'.approvedTools = grant.approvedTools) :
    b'.Asked grant' where
  origin := by
    obtain ⟨requestId, request, hfrom, hr, hnone, hapi, hident, hall⟩ := h.origin
    obtain ⟨request', hr', hsame', -⟩ := hk.requests requestId request hr
    refine ⟨requestId, request', hsame.2.2.2.trans hfrom, hr', ?_⟩
    rw [hsame'.2.1, hsame'.2.2.1, hsame'.2.2.2.1, hsame'.2.2.2.2, hsame.2.1, hsame.2.2.1, htools]
    exact ⟨hnone, hapi, hident, hall⟩
  tools tools ht tool hmem := (h.tools tools (htools ▸ ht) tool hmem).kept hk hsame

theorem Extends.kept {request' : AccessRequestRecord} (h : b.Extends request)
    (hk : b.Kept b') (hsame : SameRequest request request') : b'.Extends request' := by
  intro grantId hgrant
  obtain ⟨grant, hg, hapi, hident⟩ := h grantId (hsame.2.2.2.2 ▸ hgrant)
  obtain ⟨grant', hg', hsame'⟩ := hk.grants grantId grant hg
  refine ⟨grant', hg', ?_⟩
  rw [hsame'.2.1, hsame'.2.2.1, hsame.2.1, hsame.2.2.1]
  exact ⟨hapi, hident⟩

/-- What is to be shown of an entry: the row it put is justified. -/
theorem Justified.of_rows (h : b.Justified) (hk : b.Kept b')
    (hg : ∀ id grant', b'.grants id = some grant' → (∃ grant, b.grants id = some grant ∧
      SameGrant grant grant' ∧ grant'.approvedTools = grant.approvedTools) ∨ b'.Asked grant')
    (hr : ∀ id request', b'.requests id = some request' → (∃ request, b.requests id = some request ∧
      SameRequest request request') ∨ b.Extends request') : b'.Justified where
  asked id grant' hgrant' := by
    rcases hg id grant' hgrant' with ⟨grant, hgrant, hsame, htools⟩ | hasked
    · exact (h.asked id grant hgrant).kept hk hsame htools
    · exact hasked
  extended id request' hrequest' := by
    rcases hr id request' hrequest' with ⟨request, hrequest, hsame⟩ | hextends
    · exact (h.extended id request hrequest).kept hk hsame
    · exact hextends.kept hk (SameRequest.refl request')

/-- A tool of the wider grant is one it had, or one that was asked for. -/
theorem Asked.widen {current added : List ℕ} (h : b.Asked old) (hk : b.Kept b')
    (hsame : SameGrant old new) (hcurrent : old.approvedTools = some current)
    (hnext : new.approvedTools = some (current ++ added))
    (hrequest : b'.requests requestId = some request) (hgrant : request.grantId = some new.id)
    (htools : added ⊆ request.requestedTools.getD []) : b'.Asked new where
  origin := by
    obtain ⟨id, from', hfrom, hr, hnone, hapi, hident, -⟩ := h.origin
    obtain ⟨from'', hr', hsame', -⟩ := hk.requests id from' hr
    refine ⟨id, from'', hsame.2.2.2.trans hfrom, hr', ?_⟩
    rw [hsame'.2.1, hsame'.2.2.1, hsame'.2.2.2.2, hsame.2.1, hsame.2.2.1]
    exact ⟨hnone, hapi, hident, by simp [hnext]⟩
  tools tools ht tool hmem := by
    obtain rfl := Option.some.inj (hnext.symm.trans ht)
    rcases List.mem_append.mp hmem with hhad | hadded
    · exact (h.tools current hcurrent tool hhad).kept hk hsame
    · exact ⟨requestId, request, hrequest, .inr ⟨hgrant, htools hadded⟩⟩

/-- A tool of the narrower grant is one it had. -/
theorem Asked.narrow {current kept : List ℕ} (h : b.Asked old) (hk : b.Kept b')
    (hsame : SameGrant old new) (hcurrent : old.approvedTools = some current)
    (hnext : new.approvedTools = some kept) (hkept : kept ⊆ current) : b'.Asked new where
  origin := by
    obtain ⟨id, request, hfrom, hr, hnone, hapi, hident, -⟩ := h.origin
    obtain ⟨request', hr', hsame', -⟩ := hk.requests id request hr
    refine ⟨id, request', hsame.2.2.2.trans hfrom, hr', ?_⟩
    rw [hsame'.2.1, hsame'.2.2.1, hsame'.2.2.2.2, hsame.2.1, hsame.2.2.1]
    exact ⟨hnone, hapi, hident, by simp [hnext]⟩
  tools tools ht tool hmem := by
    obtain rfl := Option.some.inj (hnext.symm.trans ht)
    exact (h.tools current hcurrent tool (hkept hmem)).kept hk hsame

/-- A new grant covers what its request asked for. -/
theorem asked_new {grant : GrantRecord} (hfrom : grant.accessRequestId = some requestId)
    (hrequest : b.requests requestId = some request)
    (hasked : request.grantId = none) (hapi : request.apiId = grant.apiId)
    (hidentity : request.identity = grant.identity)
    (htools : WithinRequest grant.approvedTools request) :
    b.Asked grant where
  origin := by
    refine ⟨requestId, request, hfrom, hrequest, hasked, hapi, hidentity, fun hnone => ?_⟩
    cases hall : request.requestedTools with
    | none => rfl
    | some asked =>
      obtain ⟨given, hgiven, -⟩ := htools asked hall
      simp [hnone] at hgiven
  tools tools ht tool hmem := by
    refine ⟨requestId, request, hrequest, .inl ⟨hfrom, fun asked hall => ?_⟩⟩
    obtain ⟨given, hgiven, hsub⟩ := htools asked hall
    obtain rfl := Option.some.inj (hgiven.symm.trans ht)
    exact hsub hmem

/-- One case for each kind of entry. -/
theorem Justified.entry (h : b.Justified) (hs : b.Sole) (he : Entry b b') : b'.Justified := by
  have hk := hs.entry_kept he
  have same : ∀ {id : ℕ} {grant : GrantRecord}, b.grants id = some grant →
      ∃ old, b.grants id = some old ∧ SameGrant old grant ∧
        grant.approvedTools = old.approvedTools :=
    fun {_ grant} hg => ⟨grant, hg, SameGrant.refl grant, by simp⟩
  have same' : ∀ {id : ℕ} {request : AccessRequestRecord}, b.requests id = some request →
      ∃ old, b.requests id = some old ∧ SameRequest old request :=
    fun {_ request} hr => ⟨request, hr, SameRequest.refl request⟩
  cases he with
  | draw _ =>
    exact h.of_rows hk (fun id g hg => .inl (same (by simpa using hg)))
      fun id r hr => .inl (same' (by simpa using hr))
  | remark _ _ =>
    exact h.of_rows hk (fun id g hg => .inl (same (by simpa using hg)))
      fun id r hr => .inl (same' (by simpa using hr))
  | ask _ _ _ _ hgrant =>
    refine h.of_rows hk (fun id g hg => .inl (same (by simpa using hg))) fun id r hr => ?_
    simp only [requests_note, requests_draw, requests_putRequest] at hr
    split at hr
    · obtain rfl := Option.some.inj hr
      exact .inr hgrant
    · exact .inl (same' hr)
  | turn hold hsame _ _ =>
    refine h.of_rows hk (fun id g hg => .inl (same (by simpa using hg))) fun id r hr => ?_
    simp only [requests_noteIf, requests_putRequest] at hr
    split at hr
    · rename_i hid
      obtain rfl := Option.some.inj hr
      exact .inl ⟨_, hid ▸ hold, hsame⟩
    · exact .inl (same' hr)
  | grant _ _ _ hfrom hrequest hasked hapi hidentity htools =>
    refine h.of_rows hk (fun id g hg => ?_) fun id r hr => .inl (same' (by simpa using hr))
    simp only [grants_note, grants_draw, grants_putGrant] at hg
    split at hg
    · obtain rfl := Option.some.inj hg
      exact .inr (asked_new hfrom (by simpa using hrequest) hasked hapi hidentity htools)
    · exact .inl (same hg)
  | widen hold _ hsame _ hcurrent hnext hrequest hasked htools =>
    refine h.of_rows hk (fun id g hg => ?_) fun id r hr => .inl (same' (by simpa using hr))
    simp only [grants_note, grants_putGrant] at hg
    split at hg
    · obtain rfl := Option.some.inj hg
      refine .inr ((h.asked _ _ hold).widen hk hsame hcurrent hnext (by simpa using hrequest)
        ?_ htools)
      rw [hasked, hsame.1, (hs.grantId _ _ hold).1]
    · exact .inl (same hg)
  | narrow hold hsame _ hcurrent hnext hkept =>
    refine h.of_rows hk (fun id g hg => ?_) fun id r hr => .inl (same' (by simpa using hr))
    simp only [grants_putGrant] at hg
    split at hg
    · obtain rfl := Option.some.inj hg
      exact .inr ((h.asked _ _ hold).narrow hk hsame hcurrent hnext hkept)
    · exact .inl (same hg)
  | revoke hold _ hsame _ htools =>
    refine h.of_rows hk (fun id g hg => .inl ?_) fun id r hr => .inl (same' (by simpa using hr))
    simp only [grants_note, grants_putGrant] at hg
    split at hg
    · rename_i hid
      obtain rfl := Option.some.inj hg
      exact ⟨_, hid ▸ hold, hsame, htools⟩
    · exact same hg
  | restore hold _ hsame _ htools _ =>
    refine h.of_rows hk (fun id g hg => .inl ?_) fun id r hr => .inl (same' (by simpa using hr))
    simp only [grants_putGrant] at hg
    split at hg
    · rename_i hid
      obtain rfl := Option.some.inj hg
      exact ⟨_, hid ▸ hold, hsame, htools⟩
    · exact same hg

/-! ## The audit rows account for the rest -/

@[simp] theorem grantsFrom_putRequest (id : ℕ) (request : AccessRequestRecord) (requestId : ℕ) :
    (b.putRequest id request).grantsFrom requestId = b.grantsFrom requestId := by
  simp [grantsFrom]

@[simp] theorem grantsFrom_note (action : AuditAction) (id requestId : ℕ) :
    (b.note action id).grantsFrom requestId = b.grantsFrom requestId := by
  simp [grantsFrom]

@[simp] theorem grantsFrom_noteIf (row : Option AuditAction) (id requestId : ℕ) :
    (b.noteIf row id).grantsFrom requestId = b.grantsFrom requestId := by
  simp [grantsFrom]

/-- Ids without a grant do not count. -/
theorem grantsFrom_draw (h : ∀ id grant, b.grants id = some grant → id < b.fresh)
    (hle : b.fresh ≤ fresh) (requestId : ℕ) :
    (b.draw fresh).grantsFrom requestId = b.grantsFrom requestId := by
  have hmore : ∀ n, ((b.draw (b.fresh + n)).grantsFrom requestId) = b.grantsFrom requestId := by
    intro n
    induction n with
    | zero => simp [grantsFrom]
    | succ n ih =>
      have hnone : b.grants (b.fresh + n) = none := by
        by_contra hsome
        obtain ⟨grant, hg⟩ := Option.ne_none_iff_exists'.mp hsome
        have := h _ grant hg
        omega
      rw [← ih]
      simp [grantsFrom, ← Nat.add_assoc, List.range_succ, hnone]
  have hfresh := hmore (fresh - b.fresh)
  rwa [Nat.add_sub_cancel' hle] at hfresh

theorem grantsFrom_putGrant (hold : b.grants id = some old) (hsame : SameGrant old new)
    (requestId : ℕ) :
    (b.putGrant id new).grantsFrom requestId = b.grantsFrom requestId := by
  simp only [grantsFrom, fresh_putGrant]
  refine List.countP_congr fun id' _ => ?_
  by_cases hid : id' = id
  · simp [hid, hold, hsame.2.2.2]
  · simp [hid]

theorem grantsFrom_newGrant {grant : GrantRecord} (requestId : ℕ) :
    ((b.putGrant b.fresh grant).draw (b.fresh + 1)).grantsFrom requestId =
      b.grantsFrom requestId + if grant.accessRequestId = some requestId then 1 else 0 := by
  simp only [grantsFrom, fresh_draw, grants_draw, List.range_succ, List.countP_append]
  congr 1
  · refine List.countP_congr fun id hid => ?_
    have hlt := List.mem_range.mp hid
    simp [show id ≠ b.fresh by omega]
  · simp [List.countP_singleton, beq_iff_eq]

/-- A row of another kind. -/
theorem Balanced.note {action : AuditAction} (h : b.Balanced) (targetId : ℕ)
    (hask : action ≠ .accessRequest) (htools : action ≠ .accessToolsRequest)
    (happrove : action ≠ .accessApprove) (hdeny : action ≠ .accessDeny) :
    (b.note action targetId).Balanced where
  asked id := by simp [noted_note, hask, htools, h.asked id]
  askedAs id request hr := by
    have hne : action ≠ Access.askedAs request := by
      unfold Access.askedAs
      split <;> assumption
    simpa [noted_note, hne] using h.askedAs id request (by simpa using hr)
  granted id := by simp [noted_note, happrove, h.granted id]
  denied id := by simp [noted_note, hdeny, h.denied id]
  cancelled id request hr hst hdecided := by
    have hpos := h.cancelled id request (by simpa using hr) hst hdecided
    rw [noted_note]
    omega
  undecided := by simpa using h.undecided
  revoked id grant hg hst := by
    have hpos := h.revoked id grant (by simpa using hg) hst
    rw [noted_note]
    omega

theorem Balanced.draw (h : b.Balanced) (hs : b.Sole) (hle : b.fresh ≤ fresh) :
    (b.draw fresh).Balanced where
  asked := by simpa using h.asked
  askedAs := by simpa using h.askedAs
  granted id := by
    rw [grantsFrom_draw (fun id grant hg => (hs.grantId id grant hg).2) hle, noted_draw]
    exact h.granted id
  denied := by simpa using h.denied
  cancelled := by simpa using h.cancelled
  undecided := by simpa using h.undecided
  revoked := by simpa using h.revoked

/-- A grant moved, with a row that says it was revoked if it was. -/
theorem Balanced.putGrant (h : b.Balanced) (hold : b.grants id = some old)
    (hsame : SameGrant old new)
    (hst : new.status = .revoked → 0 < b.noted .accessRevoke id) :
    (b.putGrant id new).Balanced where
  asked := by simpa using h.asked
  askedAs := by simpa using h.askedAs
  granted id' := by
    rw [grantsFrom_putGrant hold hsame, noted_putGrant]
    exact h.granted id'
  denied := by simpa using h.denied
  cancelled := by simpa using h.cancelled
  undecided := by simpa using h.undecided
  revoked id' grant hg hrevoked := by
    rw [grants_putGrant] at hg
    rw [noted_putGrant]
    split at hg
    · rename_i hid
      obtain rfl := Option.some.inj hg
      exact hid ▸ hst hrevoked
    · exact h.revoked id' grant hg hrevoked

/-- A new request comes with the row that asks for it. -/
theorem Balanced.ask (h : b.Balanced) (hs : b.Sole) (hst : request.status = .pending)
    (hnobody : request.decidedBy = none) :
    (((b.putRequest b.fresh request).draw (b.fresh + 1)).note (Access.askedAs request)
      b.fresh).Balanced := by
  have hnone : b.requests b.fresh = none := by
    by_contra hsome
    obtain ⟨old, hold⟩ := Option.ne_none_iff_exists'.mp hsome
    have := (hs.requestId _ _ hold).2
    omega
  have hzero := h.asked b.fresh
  rw [hnone] at hzero
  have hkind : Access.askedAs request = .accessRequest ∨
      Access.askedAs request = .accessToolsRequest := by
    unfold Access.askedAs
    split <;> simp
  refine ⟨fun id => ?_, fun id other hr => ?_, fun id => ?_, fun id => ?_,
    fun id other hr hc hd => ?_, fun id other hr hpending => ?_, fun id grant hg hst => ?_⟩
  · have hasked := h.asked id
    by_cases hid : id = b.fresh
    · subst hid
      rcases hkind with hkind | hkind <;> simp [noted_note, hkind] <;> simp at hzero <;> omega
    · have hid' : b.fresh ≠ id := fun heq => hid heq.symm
      simp [noted_note, hid, hid', hasked]
  · simp only [requests_note, requests_draw, requests_putRequest] at hr
    split at hr
    · rename_i hid
      obtain rfl := Option.some.inj hr
      subst hid
      rcases hkind with hkind | hkind <;> simp [noted_note, hkind] <;> simp at hzero <;> omega
    · rename_i hid
      have hid' : b.fresh ≠ id := fun heq => hid heq.symm
      simpa [noted_note, hid'] using h.askedAs id other hr
  · have happrove : Access.askedAs request ≠ .accessApprove := by
      rcases hkind with hkind | hkind <;> simp [hkind]
    rw [noted_note, grantsFrom_note, grantsFrom_draw, noted_draw, noted_putRequest,
      grantsFrom_putRequest, h.granted id]
    · simp [happrove]
    · simpa using fun id grant hg => (hs.grantId id grant hg).2
    · simp
  · have hdeny : Access.askedAs request ≠ .accessDeny := by
      rcases hkind with hkind | hkind <;> simp [hkind]
    have hdenied := h.denied id
    by_cases hid : id = b.fresh
    · subst hid
      simpa [noted_note, hdeny, hst, hnone] using hdenied
    · simpa [noted_note, hdeny, hid] using hdenied
  · simp only [requests_note, requests_draw, requests_putRequest] at hr
    split at hr
    · obtain rfl := Option.some.inj hr
      simp [hst] at hc
    · have hpos := h.cancelled id other hr hc hd
      simp only [noted_note, noted_draw, noted_putRequest]
      omega
  · simp only [requests_note, requests_draw, requests_putRequest] at hr
    split at hr
    · obtain rfl := Option.some.inj hr
      exact hnobody
    · exact h.undecided id other hr hpending
  · have hpos := h.revoked id grant (by simpa using hg) hst
    simp only [noted_note, noted_draw, noted_putRequest]
    omega

/-- A turn of a request comes with the row that says so. -/
theorem Balanced.turn {old new : AccessRequestRecord} {row : Option AuditAction} (h : b.Balanced)
    (hold : b.requests id = some old) (hsame : SameRequest old new) (hturn : Turn old new row) :
    ((b.putRequest id new).noteIf row id).Balanced := by
  have hrow := hturn.row_eq
  refine ⟨fun id' => ?_, fun id' other hr => ?_, fun id' => ?_, fun id' => ?_,
    fun id' other hr hc hd => ?_, fun id' other hr hpending => ?_, fun id' grant hg hst => ?_⟩
  · have hasked := h.asked id'
    have hsome : ((b.putRequest id new).requests id').isSome = (b.requests id').isSome := by
      by_cases hid : id' = id
      · simp [hid, hold]
      · simp [hid]
    rw [requests_noteIf, hsome, ← hasked]
    rcases hrow with rfl | rfl | rfl <;> simp [noted_noteIf]
  · have hnoted : ((b.putRequest id new).noteIf row id).noted (Access.askedAs other) id' =
        b.noted (Access.askedAs other) id' := by
      unfold Access.askedAs
      rcases hrow with rfl | rfl | rfl <;> split <;> simp [noted_noteIf]
    rw [hnoted]
    simp only [requests_noteIf, requests_putRequest] at hr
    split at hr
    · rename_i hid
      obtain rfl := Option.some.inj hr
      have hkind : Access.askedAs new = Access.askedAs old := by
        simp [Access.askedAs, hsame.2.2.2.2]
      rw [hkind, hid]
      exact h.askedAs id old hold
    · exact h.askedAs id' other hr
  · rw [grantsFrom_noteIf, grantsFrom_putRequest, ← h.granted id']
    rcases hrow with rfl | rfl | rfl <;> simp [noted_noteIf]
  · have hdenied := h.denied id'
    by_cases hid : id' = id
    · subst hid
      have hzero : b.noted .accessDeny id' = 0 := by
        simpa [hold, hturn.not_denied] using hdenied
      by_cases hdeny : new.status = .denied
      · simp [noted_noteIf, hturn.denied_iff.mp hdeny, hdeny, hzero]
      · have hne : row ≠ some .accessDeny := fun heq => hdeny (hturn.denied_iff.mpr heq)
        simp [noted_noteIf, hne, hdeny, hzero]
    · have hid' : id ≠ id' := fun heq => hid heq.symm
      simpa [noted_noteIf, hid, hid'] using hdenied
  · simp only [requests_noteIf, requests_putRequest] at hr
    rw [noted_noteIf, noted_putRequest]
    split at hr
    · rename_i hid
      obtain rfl := Option.some.inj hr
      simp [hturn.cancelled (h.undecided id old hold) hc hd, hid]
    · have hpos := h.cancelled id' other hr hc hd
      omega
  · simp only [requests_noteIf, requests_putRequest] at hr
    split at hr
    · obtain rfl := Option.some.inj hr
      exact hturn.undecided hpending
    · exact h.undecided id' other hr hpending
  · have hpos := h.revoked id' grant (by simpa using hg) hst
    rw [noted_noteIf, noted_putRequest]
    omega

theorem Balanced.grant {grant : GrantRecord} (h : b.Balanced) (hst : grant.status = .active)
    (hfrom : grant.accessRequestId = some requestId) :
    (((b.putGrant b.fresh grant).draw (b.fresh + 1)).note .accessApprove requestId).Balanced := by
  refine ⟨fun id => ?_, fun id request hr => ?_, fun id => ?_, fun id => ?_,
    fun id request hr hc hd => ?_, by simpa using h.undecided, fun id other hg hrevoked => ?_⟩
  · simpa [noted_note] using h.asked id
  · have hkind : Access.askedAs request ≠ .accessApprove := by
      unfold Access.askedAs
      split <;> simp
    have hasked := h.askedAs id request (by simpa using hr)
    simpa [noted_note, hkind.symm] using hasked
  · rw [grantsFrom_note, grantsFrom_newGrant, noted_note, noted_draw, noted_putGrant, h.granted id,
      hfrom]
    simp
  · simpa [noted_note] using h.denied id
  · have hpos := h.cancelled id request (by simpa using hr) hc hd
    simpa [noted_note] using hpos
  · simp only [grants_note, grants_draw, grants_putGrant] at hg
    split at hg
    · obtain rfl := Option.some.inj hg
      simp [hst] at hrevoked
    · simpa [noted_note] using h.revoked id other hg hrevoked

/-- Every entry writes the rows that account for it. -/
theorem Balanced.entry (h : b.Balanced) (hs : b.Sole) (he : Entry b b') : b'.Balanced := by
  cases he with
  | draw hle => exact h.draw hs hle
  | @remark action targetId hremark =>
    have hne : ∀ other, remarks other = false → action ≠ other := by
      rintro other hother rfl
      simp [hother] at hremark
    exact h.note targetId (hne _ (by simp [remarks])) (hne _ (by simp [remarks]))
      (hne _ (by simp [remarks])) (hne _ (by simp [remarks]))
  | ask _ hst hnobody _ _ => exact h.ask hs hst hnobody
  | turn hold hsame hturn _ => exact h.turn hold hsame hturn
  | grant _ hst _ hfrom _ _ _ _ _ => exact h.grant hst hfrom
  | widen hold _ hsame hst' _ _ _ _ _ =>
    have hput := h.putGrant hold hsame (by simp [hst'])
    exact hput.note _ (by simp) (by simp) (by simp) (by simp)
  | narrow hold hsame hst _ _ _ =>
    exact h.putGrant hold hsame fun hrevoked => h.revoked _ _ hold (hst ▸ hrevoked)
  | @revoke id old new hold _ hsame _ _ =>
    have hnote : (b.note .accessRevoke id).Balanced :=
      h.note id (by simp) (by simp) (by simp) (by simp)
    exact hnote.putGrant (by simpa using hold) hsame fun _ => by simp [noted_note]
  | restore hold _ hsame hst' _ _ => exact h.putGrant hold hsame (by simp [hst'])

/-! ## Chains of entries -/

/-- An operation's part in the books: entries one after another. -/
def Entries : Books → Books → Prop := Relation.ReflTransGen Entry

theorem Orderly.entry (h : b.Orderly) (he : Entry b b') : b'.Orderly where
  sole := h.sole.entry he
  justified := h.justified.entry h.sole he
  balanced := h.balanced.entry h.sole he

theorem Orderly.entries (h : b.Orderly) (he : Entries b b') : b'.Orderly ∧ b.Kept b' := by
  induction he with
  | refl => exact ⟨h, Kept.refl b⟩
  | tail _ hlast ih => exact ⟨ih.1.entry hlast, ih.2.trans (ih.1.sole.entry_kept hlast)⟩

/-- A portal nobody has used. -/
theorem orderly_empty (fresh : ℕ) : Orderly ⟨fun _ => none, fun _ => none, [], fresh⟩ where
  sole := ⟨by simp, by simp, by simp, by simp⟩
  justified := ⟨by simp, by simp⟩
  balanced := ⟨by simp [noted], by simp, by simp [noted, grantsFrom], by simp [noted], by simp,
    by simp, by simp⟩

end Books

end FerrumNexus.Access
