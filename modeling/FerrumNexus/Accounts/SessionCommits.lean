import FerrumNexus.Accounts.SignOnCommits

/-!
# The other commits

Saves, unlinks, registrations, logins and resets. None of them changes a role or
a status, and of their keys only a login's protects anything here: what they
write by holds because the row is compared once more where they write it.
-/
namespace FerrumNexus.Accounts

open Saga

variable {config : Config} {isolation : Isolation} {keys : List AccountKey}
  {seen : AccountKey → Tables} {F : accountDiscipline.Fact} {d d' : Tables} {u : ℕ}

section Settings

theorem done_save {plan : SettingsPlan} {a : Unit}
    (h : (saveWrite config plan).run d.tick = .ok (a, d')) :
    Done config isolation keys seen d d' := by
  cases h
  refine Untouched.done ⟨rfl, Nat.le_succ _, fun v hv => ?_, ?_, rfl, rfl, rfl, ?_⟩
  · exact Function.update_of_ne (Nat.ne_of_lt (Nat.lt_succ_of_le hv)) _ _
  · exact fun i hi => (List.mem_filter.mp hi).1
  · exact fun x hx => .inl (List.mem_filter.mp hx).1

theorem body_save (config : Config) (plan : SettingsPlan) :
    accountDiscipline.Body F (Change config isolation) isolation keys
      (numbered <$> saveBody config plan) := by
  refine body_of_finds fun seen d _ _ => ?_
  refine Finds.bind (finds_skip (reads_reads _)) fun stored d₁ _ => ?_
  refine Finds.bind (finds_skip (reads_ensure _ _)) fun _ d₂ _ => ?_
  refine Finds.bind (finds_skip (reads_forM (fun id => ?_) _)) fun _ d₃ _ => ?_
  · exact (reads_reads _).bind fun links => reads_ensure _ _
  refine Finds.bind (finds_skip (reads_forM (fun id => ?_) _)) fun _ d₄ _ => ?_
  · exact (reads_reads _).bind fun secret => reads_ensure _ _
  exact finds_pure fun d₅ a d' _ hrun => done_save hrun

theorem done_unlink {identityId : ℕ} {a : Unit}
    (h : (unlinkWrite u identityId).run d.tick = .ok (a, d')) :
    Done config isolation keys seen d d' := by
  obtain ⟨found, d₁, h₁, h⟩ := run_bind_ok.mp h
  obtain rfl := touchLogin_cases h₁
  cases found with
  | false => cases h
  | true =>
    cases h
    refine Untouched.done ⟨rfl, le_rfl, fun _ _ => rfl, ?_, rfl, rfl, rfl, ?_⟩
    · exact fun i hi => (List.mem_filter.mp hi).1
    · exact fun x hx => .inl (List.mem_filter.mp hx).1

theorem body_unlink (userId identityId : ℕ) :
    accountDiscipline.Body F (Change config isolation) isolation keys
      (numbered <$> unlinkBody userId identityId) := by
  refine body_of_finds fun seen d _ _ => ?_
  refine Finds.bind (finds_skip (reads_reads _)) fun identity d₁ _ => ?_
  refine Finds.bind (finds_skip (reads_ensure _ _)) fun _ d₂ _ => ?_
  exact finds_pure fun d₃ a d' _ hrun => done_unlink hrun

end Settings

section Registration

theorem done_register {draft : RegistrationDraft} {founder : Bool} {userId : ℕ}
    {a : RegistrationOutcome}
    (h : (persistRegistration userId draft founder).run d.tick = .ok (a, d')) :
    Done config isolation keys seen d d' := by
  unfold persistRegistration at h
  obtain ⟨_, d₁, h₁, h⟩ := run_bind_ok.mp h
  obtain ⟨habsent, rfl⟩ := createUser_cases h₁
  obtain ⟨_, d₂, h₂, h⟩ := run_bind_ok.mp h
  obtain rfl : d₂ = d' := congrArg Prod.snd (Except.ok.inj h)
  cases founder with
  | false =>
    cases h₂
    exact Created.done (u := userId) ⟨habsent, rfl, rfl, rfl, rfl, fun _ hi => .inl hi, rfl, rfl,
      fun _ hx => .inl hx⟩
  | true =>
    cases h₂
    exact Created.done (u := userId) ⟨habsent, rfl, rfl, rfl, rfl, fun _ hi => .inl hi, rfl, rfl,
      fun _ hx => .inl hx⟩

theorem finds_memberBody (draft : RegistrationDraft) (d : Tables) :
    Finds isolation keys (memberBody draft) (fun write d₁ => ∀ d₂ a d', Evolves isolation keys d₁ d₂ →
      write.run d₂.tick = .ok (a, d') → Done config isolation keys seen d₂ d') d := by
  have hpolicy : Reads (applyRegistrationPolicy draft.role) :=
    (reads_reads _).bind fun sso => (reads_ensure _ _).bind fun _ => (reads_reads _).bind fun _ =>
      (reads_ensure _ _).bind fun _ => (reads_ensure _ _).bind fun _ => reads_pure _
  refine Finds.bind (finds_skip hpolicy) fun requireEmailVerification d₁ _ => ?_
  refine Finds.bind finds_draw fun userId d₂ _ => ?_
  exact finds_pure fun d₃ a d' _ hrun => done_register hrun

theorem body_member (draft : RegistrationDraft) :
    accountDiscipline.Body F (Change config isolation) isolation keys
      (numbered <$> memberBody draft) :=
  body_of_finds fun _ d _ _ => finds_memberBody draft d

theorem body_founder (draft : RegistrationDraft) :
    accountDiscipline.Body F (Change config isolation) isolation keys
      (numbered <$> seatFounder draft) := by
  refine body_of_finds fun seen d _ _ => ?_
  refine Finds.bind (finds_skip (reads_reads _)) fun admins d₁ _ => ?_
  split
  · refine Finds.bind finds_draw fun userId d₂ _ => ?_
    exact finds_pure fun d₃ a d' _ hrun => done_register hrun
  · exact finds_memberBody draft d₁

/-- The session of a registration is opened by a statement of its own. -/
theorem body_issueSession (userId : ℕ) (secret : Option ℕ) :
    accountDiscipline.Body F (Change config isolation) isolation keys (numbered <$> (do
      let sessionId ← draw
      pure (issueSession sessionId userId secret true) : AccountQuery (AccountWrite SessionRecord))) := by
  refine body_of_finds fun seen d _ _ => ?_
  refine Finds.bind finds_draw fun sessionId d₁ _ => ?_
  refine finds_pure fun d₂ x d' _ hrun => ?_
  obtain ⟨hx, rfl⟩ := issueSession_cases hrun
  refine Untouched.done ⟨rfl, le_rfl, fun _ _ => rfl, fun _ hi => hi, rfl, rfl, rfl, ?_⟩
  intro y hy
  refine (List.mem_append.mp hy).imp_right fun hnew => ?_
  rw [List.mem_singleton.mp hnew, hx]
  exact ⟨rfl, rfl⟩

end Registration

section Passwords

/-- A login writes the row it found, which is active and has the password that
was verified, and its session. -/
theorem done_login {sessionId passwordHash : ℕ} {x : SessionRecord} (hkey : .lifecycle u ∈ keys)
    (h : (loginWrite u sessionId passwordHash).run d.tick = .ok (x, d')) :
    Done config isolation keys seen d d' := by
  obtain ⟨row, d₁, h₁, h⟩ := run_bind_ok.mp h
  rcases updateIfMatches_cases h₁ with ⟨rfl, rfl⟩ | ⟨user, huser, hmatch, rfl, rfl⟩
  · cases h
  · obtain ⟨hx, rfl⟩ := issueSession_cases h
    have hstatus := matchesRow_status hmatch rfl
    have hhash := matchesRow_hash hmatch rfl
    refine Updated.done (u := u) ⟨huser, rfl, rfl, rfl, rfl, fun hactive => .inl hactive, .inl hkey,
      fun _ hi => .inl hi, fun hne => absurd rfl hne, ?_, fun _ => .inl rfl, fun _ => .inl rfl,
      fun _ _ _ _ => ⟨id, rfl⟩, ?_⟩
    · intro hraises
      rw [Raises, apply_role, Option.getD_none, roleAtLeast_self] at hraises
      cases hraises
    · intro y hy
      rcases List.mem_append.mp hy with hold | hnew
      · exact .inl hold
      · rw [List.mem_singleton.mp hnew, hx]
        refine .inr ⟨rfl, rfl, rfl, hstatus, fun secret hsecret => ?_⟩
        exact hhash.trans (Option.some.inj hsecret)

theorem body_login {record : UserRecord} (hkey : .lifecycle u ∈ keys) :
    accountDiscipline.Body F (Change config isolation) isolation keys
      (numbered <$> loginBody config u record) := by
  have heligible : ∀ current, Reads (checkEligible config u current) := fun current =>
    (reads_reads _).bind fun sso => (reads_ensure _ _).bind fun _ => (reads_ensure _ _).bind fun _ =>
      (reads_reads _).bind fun blocked => (reads_ensure _ _).bind fun _ =>
        (reads_ensure _ _).bind fun _ => (reads_reads _).bind fun policy => reads_ensure _ _
  refine body_of_finds fun seen d _ _ => ?_
  refine Finds.bind (finds_skip (reads_reads _)) ?_
  rintro (_ | current) d₁ _
  · exact finds_throw
  · refine Finds.bind (finds_skip (reads_ensure _ _)) fun _ d₂ _ => ?_
    refine Finds.bind (finds_skip (heligible current)) fun _ d₃ _ => ?_
    refine Finds.bind finds_draw fun sessionId d₄ _ => ?_
    exact finds_pure fun d₅ x d' _ hrun => done_login hkey hrun

theorem body_mint (userId : ℕ) :
    accountDiscipline.Body F (Change config isolation) isolation keys
      (numbered <$> mintBody config userId) := by
  refine body_of_finds fun seen d _ _ => ?_
  refine Finds.bind (finds_skip (reads_reads _)) ?_
  rintro (_ | eligible) d₁ _
  · exact finds_pure fun d₂ a d' _ hrun => done_idle hrun
  · refine Finds.bind (finds_skip (reads_reads _)) fun blocked d₂ _ => ?_
    refine Finds.bind finds_draw fun throttled d₃ _ => ?_
    split
    · exact finds_pure fun d₄ a d' _ hrun => done_idle hrun
    · refine Finds.bind finds_draw fun linkId d₄ _ => ?_
      refine Finds.bind finds_draw fun token d₅ _ => ?_
      refine Finds.bind finds_draw fun expiresAt d₆ _ => ?_
      refine finds_pure fun d₇ a d' _ hrun => done_of_keeps ?_
      cases hrun
      exact ⟨rfl, rfl, rfl, rfl, rfl, rfl, fun _ hx => hx, rfl, rfl⟩

/-- A reset ends every session of the account, and is its latest. -/
theorem resetEffects_spec {proof : EmailProofRecord} {a : Unit} (h : (do
      upsertProof u proof
      deleteResetLinks u
      markReset u
      deleteSessions u : AccountWrite Unit).run d = .ok (a, d')) : Trims d d' ∧ NoSessions d' u := by
  cases h
  have hnone := noSessions_filter d.sessions u
  refine ⟨⟨rfl, rfl, rfl, rfl, rfl, rfl, fun x hx => (List.mem_filter.mp hx).1, fun _ => .inl rfl,
    fun w => ?_⟩, hnone⟩
  by_cases hw : w = u
  · subst hw
    exact .inr ⟨Function.update_self _ _ _, hnone⟩
  · exact .inl (Function.update_of_ne hw _ _)

theorem done_reset {linkId passwordHash : ℕ} {a : Unit}
    (h : (resetWrite u linkId passwordHash).run d.tick = .ok (a, d')) :
    Done config isolation keys seen d d' := by
  obtain ⟨burned, d₁, h₁, h⟩ := run_bind_ok.mp h
  cases burned with
  | false => cases h
  | true =>
    have hd₁ : d₁ = { d.tick with resetLinks := d.resetLinks.map (burn linkId) } := by
      obtain ⟨_, _, hget, h₁⟩ := run_bind_ok.mp h₁
      cases hget
      obtain ⟨_, _, hset, h₁⟩ := run_bind_ok.mp h₁
      cases hset
      exact (congrArg Prod.snd (Except.ok.inj h₁)).symm
    subst hd₁
    obtain ⟨row, d₂, h₂, h⟩ := run_bind_ok.mp h
    rcases updateIfMatches_cases h₂ with ⟨rfl, rfl⟩ | ⟨user, huser, hmatch, rfl, rfl⟩
    · cases h
    · obtain ⟨htrims, hnone⟩ := resetEffects_spec h
      refine Updated.done (u := u) ⟨huser, htrims.users, htrims.saves, htrims.ssoRows, htrims.clock,
        fun hactive => .inl hactive, .inr ⟨rfl, rfl, htrims.identities⟩,
        fun i hi => .inl (htrims.identities ▸ hi), fun hne => absurd rfl hne,
        fun _ x hx hu => absurd hu (hnone x hx), htrims.disabled, htrims.reset,
        fun x hx _ hu => absurd hu (hnone x hx), fun x hx => .inl (htrims.sessions x hx)⟩

theorem reads_liveLink (token : ℕ) : Reads (liveLink token) := by
  refine (reads_reads _).bind ?_
  rintro (_ | link)
  · exact reads_throw _
  · exact reads_draw.bind fun now => (reads_ensure _ _).bind fun _ => reads_pure _

theorem reads_checkResettable (config : Config) (userId : ℕ) :
    Reads (checkResettable config userId) := by
  refine (reads_reads _).bind ?_
  rintro (_ | user)
  · exact reads_throw _
  · exact (reads_ensure _ _).bind fun _ => (reads_reads _).bind fun blocked => reads_ensure _ _

theorem body_reset (config : Config) (token userId passwordHash : ℕ) :
    accountDiscipline.Body F (Change config isolation) isolation keys
      (numbered <$> resetBody config token userId passwordHash) := by
  refine body_of_finds fun seen d _ _ => ?_
  refine Finds.bind (finds_skip (reads_liveLink token)) fun live d₁ _ => ?_
  refine Finds.bind (finds_skip (reads_checkResettable config userId)) fun _ d₂ _ => ?_
  exact finds_pure fun d₃ a d' _ hrun => done_reset hrun

end Passwords

end FerrumNexus.Accounts
