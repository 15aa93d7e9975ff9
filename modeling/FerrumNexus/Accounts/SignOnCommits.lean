import FerrumNexus.Accounts.UserCommits

/-!
# The commits of single sign-on

A sign-in into an account commits under the account's lifecycle key, so the
role and the status it read are those it finds, and the identities it asked
about are all there are but the one it adds. Claims reach a role through one
function only, and it answers nothing about a `super_admin`.
-/
namespace FerrumNexus.Accounts

open Saga
open Platform (Role UserStatus roleRank roleAtLeast)

variable {config : Config} {isolation : Isolation} {keys : List AccountKey}
  {seen : AccountKey → Tables} {F : accountDiscipline.Fact} {d d' : Tables} {u : ℕ}
  {provider : SsoProviderSettings} {mapping : ClaimMapping} {orgExists : Bool}

section Reads

theorem reads_currentSettings (config : Config) (provider : SsoProviderSettings) :
    Reads (currentSettings config provider) := by
  refine (reads_reads _).bind fun stored => (reads_ensure _ _).bind fun _ => ?_
  cases (providersInForce config stored).find? (·.id == provider.id) with
  | none => exact reads_throw _
  | some current =>
    exact (reads_ensure _ _).bind fun _ => (reads_ensure _ _).bind fun _ => reads_pure stored

/-- What was read again is a value of the settings row. -/
theorem finds_currentSettings (config : Config) (provider : SsoProviderSettings) :
    Finds isolation keys (currentSettings config provider) (fun stored d' =>
      Evolves isolation keys d d' ∧ stored = d'.sso) d := by
  refine Finds.bind (finds_reads _) ?_
  rintro stored d₁ ⟨hd₁, hstored⟩
  refine Finds.bind (finds_ensure (Q := fun _ d' => d₁ = d') fun _ => rfl) ?_
  rintro - _ rfl
  cases (providersInForce config stored).find? (·.id == provider.id) with
  | none => exact finds_throw
  | some current =>
    refine Finds.bind (finds_ensure (Q := fun _ d' => d₁ = d') fun _ => rfl) ?_
    rintro - _ rfl
    refine Finds.bind (finds_ensure (Q := fun _ d' => d₁ = d') fun _ => rfl) ?_
    rintro - _ rfl
    exact finds_pure ⟨hd₁, hstored⟩

end Reads

section Deprovision

theorem body_deprovision (hlifecycle : .lifecycle u ∈ keys) :
    accountDiscipline.Body F (Change config isolation) isolation keys
      (numbered <$> deprovisionBody config u provider) := by
  refine body_of_finds fun seen d _ _ => ?_
  refine Finds.bind (finds_skip (reads_currentSettings config provider)) ?_
  intro stored d₁ _
  split
  · exact finds_pure fun d₂ a d' _ hrun => done_idle hrun
  · refine Finds.bind (finds_reads _) ?_
    rintro (_ | current) d₂ -
    · exact finds_pure fun d₃ a d' _ hrun => done_idle hrun
    · simp only
      split
      · exact finds_pure fun d₃ a d' _ hrun => done_idle hrun
      · rename_i hcurrent
        refine finds_pure fun d₃ a d' hev hrun => ?_
        obtain ⟨row, d₄, hupdate, hrun⟩ := run_bind_ok.mp hrun
        rcases updateIfMatches_cases hupdate with ⟨rfl, rfl⟩ | ⟨user, huser, hmatch, rfl, hd₄⟩
        · exact done_idle hrun
        · obtain ⟨_, _, heffects, hrun⟩ := run_bind_ok.mp hrun
          cases hrun
          obtain ⟨htrims, hnone⟩ := disableEffects_spec heffects
          refine Updated.done (updated_disable huser hd₄ htrims hnone hlifecycle fun hactive => ?_)
          -- a super admin is not deprovisioned, and the write names the role
          have hrole : current.role = .super_admin :=
            (matchesRow_role hmatch rfl).symm.trans (isActiveSuperAdmin_iff.mp hactive).1
          exact absurd (.inr hrole) hcurrent

end Deprovision

section Sync

/-- The role a change gives. -/
def changedRole (change : Option ClaimsChange) : Option SsoMappableRole := change.bind (·.role)

/-- What a sign-in knows of the change its claims call for. -/
structure Granted (user : UserRecord) (mapping : ClaimMapping) (provider : SsoProviderSettings)
    (change : Option ClaimsChange) : Prop where
  role : ∀ role, changedRole change = some role →
    user.role ≠ .super_admin ∧ changedRole (planClaimsChange user mapping provider false) = some role

/-- The tables after the claims are synced, whatever they changed. -/
structure Synced (provider : SsoProviderSettings) (u : ℕ) (user : UserRecord)
    (change : Option ClaimsChange) (d d' : Tables) (row row' : UserRecord) : Prop where
  found : d.users u = some row
  role : row.role = user.role
  status : row.status = .active
  role' : row'.role = ((changedRole change).map (·.toRole)).getD row.role
  status' : row'.status = .active
  hash : row'.password_hash = row.password_hash
  users : d'.users = Function.update d.users u (some row')
  identities : d'.identities = d.identities
  saves : d'.saves = d.saves
  ssoRows : d'.ssoRows = d.ssoRows
  clock : d'.clock = d.clock
  sessions : ∀ x ∈ d'.sessions, x ∈ d.sessions
  disabled : d'.disabledAt = d.disabledAt
  reset : d'.resetAt = d.resetAt
  logged : ∀ role, changedRole change = some role →
    d'.roleChanges = ⟨u, user.role, role.toRole, .claims provider.id⟩ :: d.roleChanges
  fresh : ∀ role, changedRole change = some role →
    roleAtLeast user.role role.toRole = false → NoSessions d' u

theorem syncWrite_cases {user row : UserRecord} {change : Option ClaimsChange} {a : Unit}
    (hrow : d.users u = some row) (hrole : row.role = user.role) (hstatus : row.status = .active)
    (h : (syncWrite provider u user change).run d = .ok (a, d')) :
    ∃ row', Synced provider u user change d d' row row' := by
  cases change with
  | none =>
    cases h
    exact ⟨row, hrow, hrole, hstatus, rfl, hstatus, rfl,
      (hrow ▸ Function.update_eq_self u d.users).symm, rfl, rfl, rfl, rfl, fun _ hx => hx, rfl, rfl,
      nofun, nofun⟩
  | some change =>
    obtain ⟨updated, d₁, hupdate, h⟩ := run_bind_ok.mp h
    rcases updateIfMatches_cases hupdate with ⟨rfl, rfl⟩ | ⟨user', huser', -, rfl, rfl⟩
    · cases h
    · obtain rfl := Option.some.inj (hrow.symm.trans huser')
      refine ⟨UserUpdate.apply { role := change.role.map (·.toRole), org_id := change.org_id } row, ?_⟩
      cases hchange : change.role with
      | none =>
        simp only [hchange] at h
        cases h
        refine ⟨hrow, hrole, hstatus, ?_, hstatus, rfl, ?_, rfl, rfl, rfl, rfl, fun _ hx => hx, rfl,
          rfl, ?_, ?_⟩
        · simp only [changedRole, Option.bind_some, hchange, apply_role]
        · rfl
        · simp only [changedRole, Option.bind_some, hchange]
          nofun
        · simp only [changedRole, Option.bind_some, hchange]
          nofun
      | some role =>
        simp only [hchange] at h
        obtain ⟨_, d₂, hwhen, h⟩ := run_bind_ok.mp h
        have hkeeps := moves_whenever Keeps.refl _ (moves_deleteSessions u) _ _ _ hwhen
        have hfresh : roleAtLeast user.role role.toRole = false → NoSessions d₂ u := by
          intro hraises
          rw [hraises] at hwhen
          exact noSessions_deleteSessions (a := ()) hwhen
        cases h
        refine ⟨hrow, hrole, hstatus, ?_, hstatus, rfl, hkeeps.users, hkeeps.identities,
          hkeeps.saves, hkeeps.ssoRows, hkeeps.clock, hkeeps.sessions, hkeeps.disabled,
          hkeeps.reset, ?_, ?_⟩
        · simp only [changedRole, Option.bind_some, hchange, apply_role]
        · intro role' hrole'
          obtain rfl : role = role' := Option.some.inj (hchange.symm.trans hrole')
          exact congrArg _ hkeeps.roleChanges
        · intro role' hrole' hraises
          obtain rfl : role = role' := Option.some.inj (hchange.symm.trans hrole')
          exact hfresh hraises

/-- A sign-in into an account, as a commit. `ids` is what it makes of the
identities before it syncs the claims. -/
theorem updated_signIn {user row row' : UserRecord} {change : Option ClaimsChange}
    {ids : List UserIdentityRecord} {d₁ d₂ : Tables} {x : SessionRecord}
    (hkey : .lifecycle u ∈ keys) (hgranted : Granted user mapping provider change)
    (hids : ∀ i ∈ ids, i ∈ d.identities ∨ (i.user_id = u ∧ i.origin ≠ .provisioned ∧
      (i.origin = .automatic → roleAtLeast user.role .admin = false ∧
        ∀ role, changedRole change = some role → roleAtLeast role.toRole .admin = false)))
    (hkeeps : Keeps { d.tick with identities := ids } d₁)
    (hsync : Synced provider u user change d₁ d₂ row row')
    (hx : x.user_id = u ∧ x.committed = d₂.clock ∧ x.registration = false ∧ x.secret = none)
    (hvetted : ∀ role, changedRole change = some role →
      roleAtLeast user.role role.toRole = false → roleAtLeast role.toRole .admin = true →
        ∀ since : AccountKey → Option Tables, (∀ key ∈ keys, since key = some (seen key)) →
          Vetted config isolation since d { d₂ with sessions := d₂.sessions ++ [x] } u
            (some provider.id)) :
    Updated config isolation keys seen d { d₂ with sessions := d₂.sessions ++ [x] } u row row' := by
  have hclock : d₂.clock = d.clock + 1 := hsync.clock.trans hkeeps.clock
  have hmem : ∀ y ∈ d₂.sessions ++ [x], y ∈ d₂.sessions ∨ y = x := fun y hy =>
    (List.mem_append.mp hy).imp_right List.mem_singleton.mp
  refine ⟨congrFun hkeeps.users u ▸ hsync.found, hsync.users.trans (hkeeps.users ▸ rfl),
    hsync.saves.trans hkeeps.saves, hsync.ssoRows.trans hkeeps.ssoRows, hclock, ?_, .inl hkey, ?_,
    ?_, ?_, ?_, ?_, fun _ _ _ _ => ⟨fun _ => hsync.status', hsync.hash⟩, ?_⟩
  · intro hactive
    left
    rw [isActiveSuperAdmin_iff] at hactive ⊢
    refine ⟨?_, hsync.status'⟩
    cases hrole : changedRole change with
    | none => rw [hsync.role', hrole, Option.map_none, Option.getD_none, hactive.1]
    | some role => exact absurd (hsync.role.symm.trans hactive.1) (hgranted.role role hrole).1
  · intro i hi
    rw [hsync.identities, hkeeps.identities] at hi
    refine (hids i hi).imp_right fun hnew => ⟨hnew.1, hnew.2.1, fun horigin => ?_⟩
    obtain ⟨huser, hchange⟩ := hnew.2.2 horigin
    rw [hsync.role', hsync.role]
    refine ⟨huser, ?_⟩
    cases hrole : changedRole change with
    | none => exact huser
    | some role => exact hchange role hrole
  · intro hne since hsince
    cases hrole : changedRole change with
    | none =>
      rw [hsync.role', hrole] at hne
      exact absurd rfl hne
    | some role =>
      have hrow' : row'.role = role.toRole := by
        rw [hsync.role', hrole]
        rfl
      refine ⟨⟨u, user.role, role.toRole, .claims provider.id⟩, ?_,
        ⟨rfl, hsync.role.symm, hrow'.symm⟩, fun _ _ => ?_, fun hraises hadmin => ?_⟩
      · exact (hsync.logged role hrole).trans (congrArg _ hkeeps.roleChanges)
      · rw [hsync.role, hrow']
        exact ⟨(hgranted.role role hrole).1, role.toRole_ne⟩
      · rw [Raises, hsync.role, hrow'] at hraises
        exact hvetted role hrole hraises (hrow' ▸ hadmin) since hsince
  · intro hraises y hy hu
    have hnone : NoSessions d₂ u := by
      cases hrole : changedRole change with
      | none =>
        rw [hsync.role', hrole, Raises] at hraises
        exact absurd (roleAtLeast_self row.role) (by rw [← Bool.not_eq_true] at hraises; exact hraises)
      | some role =>
        rw [hsync.role', hrole, Raises, hsync.role] at hraises
        exact hsync.fresh role hrole hraises
    have hyx : ∀ y ∈ d₂.sessions ++ [x], y.user_id = u → y = x := fun y hy hu =>
      (hmem y hy).resolve_left fun hold => hnone y hold hu
    rw [hyx y hy hu]
    exact ⟨hx.2.1, hyx⟩
  · exact fun w => .inl (congrFun (hsync.disabled.trans hkeeps.disabled) w)
  · exact fun w => .inl (congrFun (hsync.reset.trans hkeeps.reset) w)
  · intro y hy
    rcases hmem y hy with hold | rfl
    · exact .inl (hkeeps.sessions y (hsync.sessions y hold))
    · refine .inr ⟨hx.1, hx.2.1, hx.2.2.1, hsync.status', ?_⟩
      rw [hx.2.2.2]
      intro token htoken
      cases htoken

theorem granted_plan (user : UserRecord) (mapping : ClaimMapping) (provider : SsoProviderSettings)
    (orgExists : Bool) : Granted user mapping provider
      (planClaimsChange user mapping provider orgExists) := by
  refine ⟨fun role hrole => ⟨?_, ?_⟩⟩
  · obtain ⟨change, hchange, -⟩ := Option.bind_eq_some_iff.mp hrole
    exact (planClaimsChange_spec hchange).1
  · rw [changedRole, planClaimsChange_role] at hrole ⊢
    exact hrole

/-- Claims that raise an account to an administrator found no identity of lower
trust, and otherwise their role is withheld. -/
theorem finds_claimsChange (user : UserRecord) (stored : StoredSsoSettings) :
    Finds isolation keys (claimsChange config provider mapping orgExists u user stored)
      (fun change d' => Evolves isolation keys d d' ∧ Granted user mapping provider change ∧
        ∀ role, changedRole change = some role → roleAtLeast role.toRole .admin = true →
          roleAtLeast user.role .admin = false → ∀ i ∈ d'.identities, i.user_id = u →
            some i.provider_id ≠ some provider.id →
              TrustedAt config stored i.provider_id i.issuer) d := by
  unfold claimsChange
  have hplan := granted_plan user mapping provider orgExists
  generalize planClaimsChange user mapping provider orgExists = planned at hplan ⊢
  dsimp only
  cases hpromoted : (planned.bind (·.role)).filter fun role =>
      roleAtLeast role.toRole .admin && !roleAtLeast user.role .admin with
  | none =>
    refine finds_pure ⟨Discipline.Evolves.refl _ _ d, hplan, fun role hrole hadmin huser => ?_⟩
    have hnot := Option.filter_eq_none_iff.mp hpromoted role hrole
    simp [hadmin, huser] at hnot
  | some _ =>
    refine Finds.bind (finds_lowerTrust u stored (some provider.id)) ?_
    rintro withheld d' ⟨hd', hlower⟩
    split
    · rename_i hempty
      exact finds_pure ⟨hd', hplan, fun _ _ _ _ => hlower hempty⟩
    · have hnone : changedRole (planned.bind fun change =>
          change.org_id.map fun org_id => ⟨none, some org_id⟩) = none := by
        rcases planned with _ | ⟨_, _ | _⟩ <;> rfl
      refine finds_pure ⟨hd', ⟨fun role hrole => ?_⟩, fun role hrole => ?_⟩
      · rw [hnone] at hrole
        cases hrole
      · rw [hnone] at hrole
        cases hrole

end Sync

section SignIn

variable {isolation : Isolation}

theorem finds_draw : Finds isolation keys draw (fun _ d' => Evolves isolation keys d d') d :=
  wpe_draw fun _ _ hd' => hd'

/-- The account a sign-in goes on with was active when it was read. -/
theorem finds_currentAccount (initiatingSessionId : Option ℕ) :
    Finds isolation keys (currentAccount u initiatingSessionId) (fun user d' => ∃ d₀,
      Evolves isolation keys d d₀ ∧ Evolves isolation keys d₀ d' ∧ d₀.users u = some user ∧
        user.status = .active) d := by
  refine Finds.bind (finds_reads _) ?_
  rintro current d₀ ⟨hd₀, hcurrent⟩
  cases current with
  | none => exact finds_throw
  | some current =>
    refine Finds.bind (finds_ensure (Q := fun _ d' => d₀ = d' ∧ current.status = .active)
      fun hactive => ⟨rfl, of_decide_eq_true hactive⟩) ?_
    rintro - _ ⟨rfl, hactive⟩
    cases initiatingSessionId with
    | none => exact finds_pure ⟨d₀, hd₀, Discipline.Evolves.refl _ _ d₀, hcurrent.symm, hactive⟩
    | some sessionId =>
      refine Finds.bind (finds_reads _) ?_
      rintro session d₁ ⟨hd₁, -⟩
      refine Finds.bind finds_draw ?_
      rintro live d₂ hd₂
      refine Finds.bind (finds_ensure (Q := fun _ d' => d₂ = d') fun _ => rfl) ?_
      rintro - _ rfl
      exact finds_pure ⟨d₀, hd₀, hd₁.trans hd₂, hcurrent.symm, hactive⟩

variable {id identityId sessionId : ℕ} {x : SessionRecord}

theorem createUser_cases {user : UserRecord} {a : Unit}
    (h : (createUser id user).run d = .ok (a, d')) :
    d.users id = none ∧ d' = putUser id user { d with userIds := d.userIds ++ [id] } := by
  unfold createUser at h
  obtain ⟨d₁, _, hget, h⟩ := run_bind_ok.mp h
  cases hget
  split at h
  · cases h
  · rename_i hfree
    cases h
    rw [Bool.or_eq_true, not_or, Option.not_isSome_iff_eq_none] at hfree
    exact ⟨hfree.1, rfl⟩

theorem createIdentity_cases {identity : UserIdentityRecord} {a : Unit}
    (h : (createIdentity identity).run d = .ok (a, d')) :
    d' = { d with identities := d.identities ++ [identity] } := by
  unfold createIdentity at h
  obtain ⟨d₁, _, hget, h⟩ := run_bind_ok.mp h
  cases hget
  split at h
  · cases h
  · cases h
    rfl

theorem issueSession_cases {secret : Option ℕ} {registration : Bool}
    (h : (issueSession id u secret registration).run d = .ok (x, d')) :
    x = ⟨id, u, d.clock, secret, registration⟩ ∧ d' = { d with sessions := d.sessions ++ [x] } := by
  cases h
  exact ⟨rfl, rfl⟩

theorem touchLogin_cases {a : Bool} (h : (touchLogin id).run d = .ok (a, d')) :
    d = d' := by
  cases h
  rfl

/-- A provisioned account is no super admin, and its identity and its session
are the first it has. -/
theorem done_provision {claims : IdTokenClaims} {userId passwordHash : ℕ}
    {email : String} {role : SsoMappableRole}
    (h : (provisionWrite provider claims mapping orgExists userId identityId sessionId passwordHash
      email role).run d.tick = .ok (x, d')) : Done config isolation keys seen d d' := by
  obtain ⟨_, d₁, h₁, h⟩ := run_bind_ok.mp h
  obtain ⟨_, d₂, h₂, h⟩ := run_bind_ok.mp h
  obtain ⟨_, d₃, h₃, h⟩ := run_bind_ok.mp h
  obtain ⟨_, d₄, h₄, h⟩ := run_bind_ok.mp h
  obtain ⟨habsent, hd₁⟩ := createUser_cases h₁
  have hd₂ := createIdentity_cases h₂
  have hkeeps := moves_whenever Keeps.refl _ (moves_upsertProof _ _) _ _ _ h₄
  obtain ⟨hx, rfl⟩ := issueSession_cases h
  cases h₃
  subst hd₁ hd₂
  refine Created.done (u := userId) ⟨habsent, hkeeps.users, hkeeps.saves, hkeeps.ssoRows,
    hkeeps.clock, ?_, hkeeps.disabled, hkeeps.reset, ?_⟩
  · intro i hi
    rw [hkeeps.identities] at hi
    rcases List.mem_append.mp hi with hold | hnew
    · exact .inl hold
    · rw [List.mem_singleton.mp hnew]
      exact .inr ⟨rfl, rfl, role.toRole_ne⟩
  · intro y hy
    rcases List.mem_append.mp hy with hold | hnew
    · exact .inl (hkeeps.sessions y hold)
    · rw [List.mem_singleton.mp hnew, hx]
      exact .inr ⟨rfl, rfl, rfl, rfl, rfl⟩

variable {claims : IdTokenClaims} {user row : UserRecord} {change : Option ClaimsChange}

/-- What a sign-in brings to its write: the account as it was read, still in
force, and vetted identities for a role that is raised. -/
structure Ready (config : Config) (isolation : Isolation) (keys : List AccountKey)
    (seen : AccountKey → Tables) (provider : SsoProviderSettings) (mapping : ClaimMapping) (u : ℕ)
    (user : UserRecord) (change : Option ClaimsChange) (d : Tables) : Prop where
  key : .lifecycle u ∈ keys
  granted : Granted user mapping provider change
  found : ∃ row, d.users u = some row ∧ row.role = user.role ∧ row.status = .active
  vetted : ∀ role, changedRole change = some role → roleAtLeast role.toRole .admin = true →
    roleAtLeast user.role .admin = false → ∀ since : AccountKey → Option Tables,
      (∀ key ∈ keys, since key = some (seen key)) → ∀ d' : Tables,
        (∀ i ∈ d'.identities, i.user_id = u → some i.provider_id ≠ some provider.id →
          i ∈ d.identities) → Vetted config isolation since d d' u (some provider.id)

/-- The end of a sign-in into an account: it syncs the claims and opens its
session. -/
theorem done_sync (hready : Ready config isolation keys seen provider mapping u user change d)
    {ids : List UserIdentityRecord} {d₁ : Tables}
    (hids : ∀ i ∈ ids, i ∈ d.identities ∨ (i.user_id = u ∧ i.provider_id = provider.id ∧
      i.origin ≠ .provisioned ∧ (i.origin = .automatic → roleAtLeast user.role .admin = false ∧
        ∀ role, changedRole change = some role → roleAtLeast role.toRole .admin = false)))
    (hkeeps : Keeps { d.tick with identities := ids } d₁)
    (h : (do
      syncWrite provider u user change
      issueSession sessionId u none false : AccountWrite SessionRecord).run d₁ = .ok (x, d')) :
    Done config isolation keys seen d d' := by
  obtain ⟨row, hrow, hrole, hstatus⟩ := hready.found
  obtain ⟨_, d₂, hsync, h⟩ := run_bind_ok.mp h
  obtain ⟨row', hsynced⟩ := syncWrite_cases (congrFun hkeeps.users u ▸ hrow) hrole hstatus hsync
  obtain ⟨hx, rfl⟩ := issueSession_cases h
  refine Updated.done (updated_signIn hready.key hready.granted
    (fun i hi => (hids i hi).imp_right fun h => ⟨h.1, h.2.2⟩) hkeeps hsynced
    (hx ▸ ⟨rfl, rfl, rfl, rfl⟩) ?_)
  intro role hchanged hraises hadmin since hsince
  refine hready.vetted role hchanged hadmin ?_ since hsince _ ?_
  · rw [not_roleAtLeast] at hraises ⊢
    cases role with
    | admin => exact hraises
    | client => cases hadmin
    | provider => cases hadmin
  · intro i hi _ hp
    rw [hsynced.identities, hkeeps.identities] at hi
    exact (hids i hi).resolve_right fun h => hp (congrArg some h.2.1)

theorem done_link {explicit : Bool}
    (hready : Ready config isolation keys seen provider mapping u user change d)
    (hauto : explicit = false → privilegedAutoLink user mapping provider = false)
    (h : (linkWrite config provider claims u identityId sessionId user explicit change).run d.tick =
      .ok (x, d')) : Done config isolation keys seen d d' := by
  obtain ⟨_, d₁, h₁, h⟩ := run_bind_ok.mp h
  obtain ⟨_, d₂, h₂, h⟩ := run_bind_ok.mp h
  have hkeeps := moves_whenever Keeps.refl _ (moves_upsertProof _ _) _ _ _ h₂
  rw [createIdentity_cases h₁] at hkeeps
  refine done_sync hready (fun i hi => ?_) hkeeps h
  rcases List.mem_append.mp hi with hold | hnew
  · exact .inl hold
  · rw [List.mem_singleton.mp hnew]
    cases explicit with
    | true => exact .inr ⟨rfl, rfl, nofun, nofun⟩
    | false =>
      obtain ⟨huser, hplanned⟩ := not_privilegedAutoLink false (hauto rfl)
      exact .inr ⟨rfl, rfl, nofun, fun _ => ⟨huser, fun role hrole =>
        hplanned role (hready.granted.role role hrole).2⟩⟩

theorem done_returning (hready : Ready config isolation keys seen provider mapping u user change d)
    (h : (returningWrite provider u identityId sessionId user change).run d.tick = .ok (x, d')) :
    Done config isolation keys seen d d' := by
  obtain ⟨touched, d₁, h₁, h⟩ := run_bind_ok.mp h
  obtain rfl := touchLogin_cases h₁
  cases touched with
  | false => cases h
  | true => exact done_sync hready (fun i hi => .inl hi) (Keeps.refl _) h

/-- What the reads of a sign-in into an account leave for its write. -/
theorem ready_of_finds {stored : StoredSsoSettings} {d₁ d₂ d₃ d₄ : Tables}
    (hkey : .lifecycle u ∈ keys) (htaken : Grows (seen (.lifecycle u)) d₁) (hstored : stored = d₁.sso)
    (h₁₂ : Evolves isolation keys d₁ d₂) (h₂₃ : Evolves isolation keys d₂ d₃)
    (h₃₄ : Evolves isolation keys d₃ d₄) (huser : d₂.users u = some user)
    (hactive : user.status = .active) (hgranted : Granted user mapping provider change)
    (htrusted : ∀ role, changedRole change = some role → roleAtLeast role.toRole .admin = true →
      roleAtLeast user.role .admin = false → ∀ i ∈ d₃.identities, i.user_id = u →
        some i.provider_id ≠ some provider.id →
          TrustedAt config stored i.provider_id i.issuer) :
    Ready config isolation keys seen provider mapping u user change d₄ := by
  refine ⟨hkey, hgranted, ?_, fun role hrole hadmin hbelow since hsince d' hids => ?_⟩
  · obtain ⟨row, hrow, hrole, hstatus⟩ :=
      (Evolves.settled (h₂₃.trans h₃₄) hkey).account user huser
    exact ⟨row, hrow, hrole, hstatus.trans hactive⟩
  · refine vetted_of_evolves hkey hsince htaken (h₁₂.trans h₂₃) h₃₄ ?_ ?_ hids
    · exact h₂₃.grows.users u (huser ▸ rfl)
    · exact hstored ▸ htrusted role hrole hadmin hbelow

/-- What a plan needs: a sign-in into an account holds its lifecycle key. -/
def SignInPlan.Keyed (keys : List AccountKey) : SignInPlan → Prop
  | .returning userId _ _ => .lifecycle userId ∈ keys
  | .link userId _ _ => .lifecycle userId ∈ keys
  | .provision => True

theorem body_signIn {plan : SignInPlan} (hkeyed : plan.Keyed keys) :
    accountDiscipline.Body F (Change config isolation) isolation keys
      (numbered <$> signInBody config provider claims mapping orgExists plan) := by
  refine body_of_finds fun seen d _ hseen => ?_
  refine Finds.bind (finds_currentSettings config provider) ?_
  rintro stored d₁ ⟨hd₁, hstored⟩
  refine Finds.bind (finds_skip (reads_check _)) ?_
  intro _ d₂ hd₂
  refine Finds.bind finds_draw ?_
  intro sessionId d₃ hd₃
  have h₁₃ := hd₂.trans hd₃
  cases plan with
  | provision =>
    simp only
    split
    · refine Finds.bind finds_draw fun passwordHash d₄ _ => ?_
      refine Finds.bind finds_draw fun userId d₅ _ => ?_
      refine Finds.bind finds_draw fun identityId d₆ _ => ?_
      exact finds_pure fun d₇ x d' _ hrun => done_provision hrun
    · exact finds_throw
  | link userId explicit initiatingSessionId =>
    have htaken := (hseen _ hkeyed).trans hd₁.grows
    refine Finds.bind (finds_currentAccount initiatingSessionId) ?_
    rintro user d₄ ⟨d₀, hd₀, hd₄, huser, hactive⟩
    refine Finds.bind (finds_ensure (Q := fun _ d' => d₄ = d' ∧
      (explicit = false → privilegedAutoLink user mapping provider = false)) ?_) ?_
    · intro hensure
      refine ⟨rfl, fun hauto => ?_⟩
      simpa [hauto] using hensure
    rintro - _ ⟨rfl, hauto⟩
    refine Finds.bind finds_draw fun identityId d₅ hd₅ => ?_
    refine Finds.bind (finds_claimsChange user stored) ?_
    rintro change d₆ ⟨hd₆, hgranted, htrusted⟩
    refine finds_pure fun d₇ x d' hev hrun => done_link ?_ hauto hrun
    exact ready_of_finds hkeyed htaken hstored (h₁₃.trans hd₀) ((hd₄.trans hd₅).trans hd₆) hev huser
      hactive hgranted htrusted
  | returning userId identity initiatingSessionId =>
    have htaken := (hseen _ hkeyed).trans hd₁.grows
    refine Finds.bind (finds_currentAccount initiatingSessionId) ?_
    rintro user d₄ ⟨d₀, hd₀, hd₄, huser, hactive⟩
    refine Finds.bind (finds_claimsChange user stored) ?_
    rintro change d₆ ⟨hd₆, hgranted, htrusted⟩
    have hready : ∀ d₇, Evolves isolation keys d₆ d₇ →
        Ready config isolation keys seen provider mapping userId user change d₇ := fun d₇ hev =>
      ready_of_finds hkeyed htaken hstored (h₁₃.trans hd₀) (hd₄.trans hd₆) hev huser hactive
        hgranted htrusted
    exact finds_pure fun d₇ x d' hev hrun => done_returning (hready d₇ hev) hrun

end SignIn

end FerrumNexus.Accounts
