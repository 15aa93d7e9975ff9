import FerrumNexus.Links.Commits

/-!
# The programs are sound

Whatever the other requests do, every action of a request is no commit or a
commit as the transactions make it. A request for a link commits a mint or
nothing, and that needs none of what it read before.
-/
namespace FerrumNexus.Links

open Saga Platform Accounts

variable {deps : Deps} {isolation : Isolation} {slot : ℕ} {held : Held}
  {F : linkDiscipline.Fact} {C : LinkTables → LinkTables → Prop} {α β : Type}

-- a program is not to be run while its rule is looked for
attribute [local irreducible] ensure

section Rules

/-- A write that moves the tables within `C`, where it commits. -/
def Within (C : LinkTables → LinkTables → Prop) (write : LinkWrite α) : Prop :=
  ∀ d x d', (numbered write).run d = .ok (x, d') → C d d'

/-- A query that plans such a write, whatever it reads. -/
def Plans (C : LinkTables → LinkTables → Prop) (body : LinkQuery (LinkWrite α)) : Prop :=
  ∀ R d, wpe R Eq body (fun write _ => Within C write) (fun _ _ => True) d

theorem plans_pure {write : LinkWrite α} (h : Within C write) : Plans C (pure write) :=
  fun _ _ => h

theorem plans_throw (e : AccountError) : Plans C (throw e : LinkQuery (LinkWrite α)) :=
  fun _ _ => trivial

/-- A query nothing is asked of. -/
theorem wpe_skips {R : LinkTables → LinkTables → Prop} {P : LinkTables → Prop}
    (hstable : ∀ d d', P d → R d d' → P d') {p : LinkQuery β} (h : Reads p) {d : LinkTables}
    (hd : P d) : wpe R Eq p (fun _ d' => P d') (fun _ _ => True) d :=
  wpe_mono (wp_guarantee (h.wpe hstable hd) (fun _ _ hg => hg.1) fun _ _ hq => hq)
    (fun _ _ hq => hq) fun _ _ _ => trivial

theorem Plans.bind {p : LinkQuery β} {g : β → LinkQuery (LinkWrite α)} (hp : Reads p)
    (hg : ∀ b, Plans C (g b)) : Plans C (p >>= g) :=
  fun R _ => wpe_call (wpe_skips (P := fun _ => True) (fun _ _ _ _ => trivial) hp trivial)
    (fun b d' _ => hg b R d') fun _ _ h => h

theorem reads_reads (f : LinkTables → α) : Reads (reads f) := reads_look AccountError.internal f

/-- Whatever it reads, the query answers with an `a` of `P`. -/
def Answers (P : α → Prop) (p : AccountQuery α) : Prop :=
  ∀ a, wpe (fun _ _ => True) (fun _ _ => True) p (fun x _ => P x) (fun _ _ => True) a

theorem Answers.bind {P : α → Prop} {p : AccountQuery β} {g : β → AccountQuery α}
    (hg : ∀ b, Answers P (g b)) : Answers P (p >>= g) := by
  intro a
  rw [wpe_bind]
  change wp _ _ p.run _ a
  generalize p.run = p
  induction p generalizing a with
  | done r =>
    cases r with
    | error e => trivial
    | ok b => exact hg b a
  | action f k ih => exact fun _ _ _ b a' _ => ⟨trivial, ih b a'⟩

/-- A query of the account services leaves every table, whatever it answers. -/
theorem wpe_onAccounts {P : α → Prop} {p : AccountQuery α} (h : Answers P p)
    (R : LinkTables → LinkTables → Prop) (d : LinkTables) :
    wpe R Eq (onAccounts p) (fun x _ => P x) (fun _ _ => True) d := by
  have hp := h d.accounts
  change wp _ _ (through LinkTables.accounts p.run) _ d
  change wp _ _ p.run _ d.accounts at hp
  generalize p.run = p at hp
  generalize d.accounts = a at hp
  induction p generalizing d a with
  | done r =>
    cases r with
    | error e => trivial
    | ok x => exact hp
  | action f k ih =>
    intro d₁ _ c b d' hf
    obtain ⟨⟨b, a'⟩, hb, heq⟩ := Option.map_eq_some_iff.mp hf
    cases heq
    exact ⟨rfl, ih b d₁ a' (hp d₁.accounts trivial c b a' hb).2⟩

theorem answers_any (p : AccountQuery α) : Answers (fun _ => True) p := by
  have h : Answers (fun _ => True) (p >>= pure) := Answers.bind fun _ _ => trivial
  rwa [bind_pure] at h

theorem reads_onAccounts (p : AccountQuery α) : Reads (onAccounts p) :=
  wpe_onAccounts (answers_any p) _

theorem sound_locks {key : AccountKey} {fn : Held → LinkProgram α}
    (h : ∀ held, linkDiscipline.Sound F (fun _ => C) slot held (fn held)) (held : Held) :
    linkDiscipline.Sound F (fun _ => C) slot held (locks slot key fn held) :=
  Discipline.sound_underLease _ key fun _ => h _

theorem sound_transaction {body : LinkQuery (LinkWrite α)} (hC : ∀ d d', C d d' → Grows d d')
    (h : Plans C body) (held : Held) :
    linkDiscipline.Sound F (fun _ => C) slot held (transaction isolation slot body held) := by
  apply Discipline.sound_transact
  intro seen d _ _
  rw [wpe_map]
  refine wpe_mono (h _ d) (fun write _ hwrite d₁ _ x d' hrun => ?_) fun _ _ _ => trivial
  have hchange := hwrite d₁ x d' hrun
  exact ⟨hC _ _ hchange, fun _ _ => trivial, fun _ _ => hchange⟩

end Rules

/-! ## Requests for a link -/

section Mint

theorem reads_drawDraft : Reads drawDraft := by
  unfold drawDraft
  apply reads_draw.bind
  intro id
  apply reads_draw.bind
  intro now
  apply reads_draw.bind
  intro created
  exact reads_draw.bind fun queued => reads_pure _

theorem reads_resettable (userId : ℕ) : Reads (resettable deps userId) := by
  unfold resettable
  apply (reads_reads _).bind
  rintro (_ | current)
  · exact reads_pure _
  · exact (reads_reads _).bind fun blocked => reads_pure _

theorem within_nothing : Within (Whole deps) (pure ()) := fun _ _ _ => whole_pure

theorem within_mintWrite (userId : ℕ) (purpose : Purpose) (token issuedAt : ℕ) (draft : Draft) :
    Within (Whole deps) (mintWrite deps userId purpose token issuedAt draft) :=
  fun _ _ _ => whole_mintWrite

theorem plans_resendBody (userId : ℕ) (email : String) (token issuedAt : ℕ) :
    Plans (Whole deps) (resendBody deps userId email token issuedAt) := by
  unfold resendBody
  apply Plans.bind (reads_reads _)
  rintro (_ | current)
  · exact plans_pure within_nothing
  · intro R d
    dsimp only
    split
    · exact plans_pure within_nothing R d
    · exact Plans.bind reads_drawDraft (fun draft => plans_pure (within_mintWrite _ _ _ _ _)) R d

theorem plans_requestBody (userId token issuedAt : ℕ) :
    Plans (Whole deps) (requestBody deps userId token issuedAt) := by
  unfold requestBody
  apply Plans.bind (reads_resettable userId)
  intro eligible
  cases eligible with
  | false => exact plans_pure within_nothing
  | true => exact Plans.bind reads_drawDraft fun draft => plans_pure (within_mintWrite _ _ _ _ _)

theorem Whole.grows (d d' : LinkTables) (h : Whole deps d d') : Grows d d' := h.change.grows

theorem sound_withUniformAnswer {body : LinkProgram Unit}
    (h : linkDiscipline.Sound F (fun _ => C) slot held body) :
    linkDiscipline.Sound F (fun _ => C) slot held (withUniformAnswer body) :=
  h.tryCatch fun _ => Discipline.sound_pure ()

theorem sound_resendVerification (rawEmail : String) :
    linkDiscipline.Sound F (fun _ => Whole deps) slot []
      (resendVerification deps isolation slot rawEmail) := by
  apply sound_withUniformAnswer
  apply (Discipline.sound_watch _).bind
  rintro (_ | ⟨userId, record⟩)
  · exact Discipline.sound_pure ()
  apply Discipline.sound_ite
  · exact fun _ => Discipline.sound_pure ()
  intro _
  apply (Discipline.sound_watch _).bind
  intro fresh
  apply Discipline.sound_ite
  · exact fun _ => Discipline.sound_pure ()
  intro _
  apply (Discipline.sound_watch _).bind
  intro token
  apply (Discipline.sound_watch _).bind
  intro _
  apply (Discipline.sound_watch _).bind
  intro issuedAt
  exact sound_locks (sound_transaction Whole.grows (plans_resendBody _ _ _ _)) []

theorem sound_requestPasswordReset (rawEmail : String) :
    linkDiscipline.Sound F (fun _ => Whole deps) slot []
      (requestPasswordReset deps isolation slot rawEmail) := by
  apply sound_withUniformAnswer
  apply (Discipline.sound_watch _).bind
  rintro (_ | ⟨userId, record⟩)
  · exact Discipline.sound_pure ()
  apply sound_locks
  intro held
  apply (Discipline.sound_watch _).bind
  intro eligible
  apply Discipline.sound_ite
  · intro _
    apply (Discipline.sound_watch _).bind
    intro fresh
    apply Discipline.sound_ite
    · exact fun _ => Discipline.sound_pure ()
    intro _
    apply (Discipline.sound_watch _).bind
    intro token
    apply (Discipline.sound_watch _).bind
    intro _
    apply (Discipline.sound_watch _).bind
    intro issuedAt
    exact sound_transaction Whole.grows (plans_requestBody _ _ _) held
  · exact fun _ => Discipline.sound_pure ()

end Mint

/-! ## Redemptions -/

section Redeem

theorem Change.grows' (d d' : LinkTables) (h : Change deps d d') : Grows d d' := h.grows

theorem sound_verifyEmail (token : ℕ) :
    linkDiscipline.Sound F (fun _ => Change deps) slot []
      (verifyEmail deps isolation slot token) := by
  apply (Discipline.sound_watch _).bind
  rintro (_ | row)
  · exact Discipline.sound_throw _
  apply Discipline.sound_ite
  · exact fun _ => Discipline.sound_throw _
  intro _
  apply (Discipline.sound_watch _).bind
  intro now
  apply Discipline.sound_ite
  · exact fun _ => Discipline.sound_throw _
  intro _
  apply (Discipline.sound_watch _).bind
  intro usedAt
  exact sound_transaction Change.grows' (plans_pure fun _ _ _ => change_verifyWrite) []

/-- The link was once in the table, as a reset link with this token. -/
def learned (token : ℕ) (row : VerificationTokenRecord) : linkDiscipline.Fact where
  holds d := (∃ known ∈ d.rows, known.stamp = row.stamp) ∧ row.token_hash = token ∧
    row.purpose = .password_reset
  stable d d' h hgrows := by
    obtain ⟨⟨known, hknown, hstamp⟩, hrow⟩ := h
    obtain ⟨kept, hkept, hsame⟩ := hgrows known hknown
    exact ⟨⟨kept, hkept, hsame.trans hstamp⟩, hrow⟩

/-- A link that was read live was in the table, as a reset link. -/
theorem wpe_liveLink {R : LinkTables → LinkTables → Prop} (hR : ∀ d d', R d d' → Grows d d')
    (K : linkDiscipline.Fact) (token : ℕ) {d : LinkTables} (hd : K.holds d) :
    wpe R Eq (liveLink token) (fun row d' => (K.and (learned token row)).holds d')
      (fun _ _ => True) d := by
  refine wpe_call (M := fun found d' => K.holds d' ∧ ∀ row, found = some row →
    (learned token row).holds d') (F := fun _ _ => True) ?_ ?_ fun _ _ h => h
  · apply wpe_look
    intro d' hr
    refine ⟨K.stable _ _ hd (hR _ _ hr), fun row hfound => ?_⟩
    have hrow := List.find?_some hfound
    rw [Bool.and_eq_true, beq_iff_eq, beq_iff_eq] at hrow
    have hmem := (List.mem_filter.mp (List.mem_of_find?_eq_some hfound)).1
    exact ⟨⟨row, hmem, rfl⟩, hrow⟩
  rintro (_ | row) d' ⟨hK, hd'⟩
  · exact trivial
  have hboth : (K.and (learned token row)).holds d' := ⟨hK, hd' row rfl⟩
  refine wpe_call (M := fun _ d'' => (K.and (learned token row)).holds d'')
    (F := fun _ _ => True) ?_ ?_ fun _ _ h => h
  · exact wpe_draw fun d'' _ hr => (K.and (learned token row)).stable _ _ hboth (hR _ _ hr)
  · intro now d'' hd''
    split
    · exact hd''
    · exact trivial

/-- The link burned is of the account that the first read found. -/
theorem body_resetBody {token passwordHash : ℕ} {keys : List AccountKey}
    {outer : VerificationTokenRecord} :
    linkDiscipline.Body (F.and (learned token outer)) (fun _ => Change deps) isolation keys
      (numbered <$> resetBody deps token outer.user_id passwordHash) := by
  rintro seen d ⟨-, houter⟩ -
  rw [wpe_map]
  apply wpe_call (wpe_liveLink (fun _ _ h => h.grows) (learned token outer) token houter)
  · intro inner d₁ hd₁
    have hstable : ∀ d d', ((learned token outer).and (learned token inner)).holds d →
        linkDiscipline.Evolves isolation keys d d' →
        ((learned token outer).and (learned token inner)).holds d' :=
      fun d d' hd h => Discipline.Fact.stable _ d d' hd h.grows
    apply wpe_call (wpe_skips hstable (reads_onAccounts _) hd₁)
    · intro _ d₂ hd₂
      apply wpe_call (wpe_skips hstable reads_draw hd₂)
      · intro usedAt d₃ hd₃ d₄ hev x d' hrun
        obtain ⟨⟨hknown, htoken, -⟩, hknown', htoken', hpurpose⟩ := hstable d₃ d₄ hd₃ hev
        have hchange : Change deps d₄ d' :=
          change_resetWrite hpurpose (htoken'.trans htoken.symm) hknown hknown' hrun
        exact ⟨hchange.grows, fun _ _ => trivial, fun _ _ => hchange⟩
      · exact fun _ _ h => h
    · exact fun _ _ h => h
  · exact fun _ _ h => h

theorem sound_resetPassword (token : ℕ) (newPassword : String) :
    linkDiscipline.Sound (Discipline.Fact.none linkDiscipline) (fun _ => Change deps) slot []
      (resetPassword deps isolation slot token newPassword) := by
  apply (Discipline.sound_watch _).bind
  intro _
  apply Discipline.sound_learn (learned token)
  · intro d hd
    refine wpe_mono (wpe_liveLink (fun _ _ h => h) _ token hd) (fun _ _ h => h.2) fun _ _ h => h
  intro row
  apply (Discipline.sound_watch _).bind
  intro _
  apply (Discipline.sound_watch _).bind
  intro passwordHash
  apply sound_locks
  apply sound_locks
  apply sound_locks
  exact fun held => Discipline.sound_transact _ _ body_resetBody

end Redeem

/-! ## Disables and re-enables -/

section Lifecycle

variable {actor : Actor} {userId : ℕ}

theorem plans_flipBody {flips : α → Bool} {body : AccountQuery (AccountWrite α)}
    (h : Answers (Flips userId flips) body) :
    Plans (Change deps) (flipBody userId flips body) := by
  intro R d
  rw [flipBody, wpe_map]
  exact wpe_mono (wpe_onAccounts h R d) (fun _ _ hflips _ _ _ => change_flipping hflips)
    fun _ _ h => h

theorem answers_transitionBody {config : Config} {target : UserRecord} {update : UserUpdate}
    (hpassword : update.password_hash = none) :
    Answers (Flips userId fun row => row.isSome && update.status.isSome)
      (transitionBody config actor userId target update) := by
  apply Answers.bind
  intro current
  apply Answers.bind
  intro _
  apply Answers.bind
  intro _
  apply Answers.bind
  exact fun _ _ => flips_transitionWrite hpassword

theorem sound_transition {target : UserRecord} {update : UserUpdate}
    (hpassword : update.password_hash = none) :
    linkDiscipline.Sound F (fun _ => Change deps) slot []
      (transition deps isolation slot actor userId target update) := by
  have hbody : Plans (Change deps) (flipBody userId (fun row => row.isSome && update.status.isSome)
      (transitionBody deps.config actor userId target update)) :=
    plans_flipBody (answers_transitionBody hpassword)
  unfold transition
  dsimp only [underTransitionKeys]
  split
  · apply sound_locks
    split
    · exact sound_locks (sound_transaction Change.grows' hbody)
    · exact sound_transaction Change.grows' hbody
  · split
    · exact sound_locks (sound_transaction Change.grows' hbody) []
    · exact sound_transaction Change.grows' hbody []

theorem sound_updateUser (patch : UpdateUserRequest) :
    linkDiscipline.Sound F (fun _ => Change deps) slot []
      (updateUser deps isolation slot actor userId patch) := by
  apply (Discipline.sound_watch _).bind
  intro target
  apply (Discipline.sound_watch _).bind
  intro _
  apply Discipline.sound_ite
  · exact fun _ => Discipline.sound_pure ()
  intro _
  apply (sound_transition rfl).bind
  rintro (_ | row)
  · exact Discipline.sound_throw _
  · exact Discipline.sound_pure ()

theorem answers_disableBody {target : UserRecord} :
    Answers (Flips userId fun _ => true) (disableBody userId target) := by
  apply Answers.bind
  rintro (_ | current)
  · exact fun _ => trivial
  apply Answers.bind
  intro _
  apply Answers.bind
  exact fun _ _ => flips_disableWrite

theorem sound_disableUser (reason : String) :
    linkDiscipline.Sound F (fun _ => Change deps) slot []
      (disableUser isolation slot actor userId reason) := by
  apply (Discipline.sound_watch _).bind
  intro _
  apply (Discipline.sound_watch _).bind
  intro target
  apply (Discipline.sound_watch _).bind
  intro _
  apply (Discipline.sound_watch _).bind
  intro _
  have hbody : Plans (Change deps) (flipBody userId (fun _ => true) (disableBody userId target)) :=
    plans_flipBody answers_disableBody
  dsimp only
  split
  · exact sound_locks (sound_locks (sound_transaction Change.grows' hbody)) []
  · exact sound_locks (sound_transaction Change.grows' hbody) []

theorem answers_deprovisionBody {config : Config} {provider : SsoProviderSettings} :
    Answers (Flips userId id) (deprovisionBody config userId provider) := by
  apply Answers.bind
  intro stored a
  split
  · exact flips_pure id false
  refine Answers.bind (fun current a => ?_) a
  cases current with
  | none => exact flips_pure id false
  | some current =>
    dsimp only
    split
    · exact flips_pure id false
    · exact flips_deprovisionWrite

theorem sound_deprovision (provider : SsoProviderSettings) :
    linkDiscipline.Sound F (fun _ => Change deps) slot []
      (deprovision deps isolation slot userId provider) := by
  apply sound_locks
  apply sound_locks
  exact sound_transaction Change.grows' (plans_flipBody answers_deprovisionBody)

end Lifecycle

/-! ## Every request -/

/-- The requests for a link. -/
def LinkOp.mints : LinkOp → Prop
  | .requestPasswordReset _ => True
  | .resendVerification _ => True
  | _ => False

theorem program_sound {p : LinkProgram α} (h : linkDiscipline.Sound
    (Discipline.Fact.none linkDiscipline) (fun _ => C) slot [] p) (s : World) :
    wp (linkDiscipline.Kept slot) (linkDiscipline.Guar (fun _ => C) slot) p.toProgram
      (fun _ _ => True) s :=
  Discipline.Sound.toProgram h s

/-- A request for a link mints or does nothing. -/
theorem linkProgram_whole {op : LinkOp} (hop : op.mints) (slot : ℕ) (s : World) :
    wp (linkDiscipline.Kept slot) (linkDiscipline.Guar (fun _ => Whole deps) slot)
      (linkProgram deps isolation slot op) (fun _ _ => True) s := by
  cases op with
  | requestPasswordReset email =>
    rw [linkProgram]
    exact program_sound (sound_requestPasswordReset email) s
  | resendVerification email =>
    rw [linkProgram]
    exact program_sound (sound_resendVerification email) s
  | verifyEmail token => exact hop.elim
  | resetPassword token newPassword => exact hop.elim
  | updateUser actor targetId patch => exact hop.elim
  | disableUser actor userId reason => exact hop.elim
  | deprovision userId provider => exact hop.elim

/-- Each operation commits only changes of the listed kinds. -/
theorem linkProgram_sound (slot : ℕ) (op : LinkOp) (s : World) :
    wp (linkDiscipline.Kept slot) (linkDiscipline.Guar (fun _ => Change deps) slot)
      (linkProgram deps isolation slot op) (fun _ _ => True) s := by
  have hmint : op.mints → wp (linkDiscipline.Kept slot)
      (linkDiscipline.Guar (fun _ => Change deps) slot) (linkProgram deps isolation slot op)
      (fun _ _ => True) s := by
    intro hop
    refine wp_guarantee (linkProgram_whole hop slot s) (fun s s' hguar => ?_) fun _ _ h => h
    exact ⟨hguar.kept, hguar.change.imp_right Whole.change⟩
  cases op with
  | requestPasswordReset email => exact hmint trivial
  | resendVerification email => exact hmint trivial
  | verifyEmail token =>
    rw [linkProgram]
    exact program_sound (sound_verifyEmail token) s
  | resetPassword token newPassword =>
    rw [linkProgram]
    exact program_sound (sound_resetPassword token newPassword) s
  | updateUser actor targetId patch =>
    rw [linkProgram]
    exact program_sound (sound_updateUser patch) s
  | disableUser actor userId reason =>
    rw [linkProgram]
    exact program_sound (sound_disableUser reason) s
  | deprovision userId provider =>
    rw [linkProgram]
    exact program_sound (sound_deprovision provider) s

end FerrumNexus.Links
