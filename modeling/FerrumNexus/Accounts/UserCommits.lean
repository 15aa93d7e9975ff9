import FerrumNexus.Accounts.Commits

/-!
# The commits of updates and disables

A row that was read before the keys decides which keys are taken and whether the
other super admins are counted. That is sound because the write names the role
and the status it decided by: a row that changed since is not written.
-/
namespace FerrumNexus.Accounts

open Saga
open Platform (Role UserStatus roleRank roleAtLeast)

section Disable

variable {config : Config} {isolation : Isolation} {keys : List AccountKey}
  {seen : AccountKey → Tables} {d d' : Tables} {u : ℕ} {user : UserRecord}

@[simp] theorem apply_role (update : UserUpdate) (user : UserRecord) :
    (update.apply user).role = update.role.getD user.role := rfl

@[simp] theorem apply_status (update : UserUpdate) (user : UserRecord) :
    (update.apply user).status = update.status.getD user.status := rfl

@[simp] theorem apply_password_hash (update : UserUpdate) (user : UserRecord) :
    (update.apply user).password_hash = update.password_hash.getD user.password_hash := rfl

theorem isActiveSuperAdmin_iff :
    isActiveSuperAdmin user = true ↔ user.role = .super_admin ∧ user.status = .active := by
  simp [isActiveSuperAdmin]

/-- A disable is a commit like any other where it takes no active super admin
away, or where another was found under the key. -/
theorem updated_disable {d₁ : Tables} (hfound : d.users u = some user)
    (hd₁ : d₁ = putUser u ({ status := some .disabled : UserUpdate }.apply user) d.tick)
    (htrims : Trims d₁ d') (hnone : NoSessions d' u) (hkey : .lifecycle u ∈ keys)
    (hsuper : isActiveSuperAdmin user = true →
      .superAdmins ∈ keys ∧ ∃ v, v ≠ u ∧ ActiveSuper d v) :
    Updated config isolation keys seen d d' u user
      ({ status := some .disabled : UserUpdate }.apply user) := by
  subst hd₁
  refine ⟨hfound, htrims.users, htrims.saves, htrims.ssoRows, htrims.clock,
    fun hactive => .inr (hsuper hactive), .inl hkey, ?_, ?_, ?_, htrims.disabled, htrims.reset, ?_,
    fun x hx => .inl (htrims.sessions x hx)⟩
  · exact fun i hi => .inl (htrims.identities ▸ hi)
  · intro hne
    exact absurd rfl hne
  · intro _ x hx hu
    exact absurd hu (hnone x hx)
  · exact fun x hx _ hu => absurd hu (hnone x hx)

/-- God-mode `disableUser` in its transaction. -/
theorem body_disable {F : accountDiscipline.Fact} {target : UserRecord}
    (hlifecycle : .lifecycle u ∈ keys)
    (hguard : isActiveSuperAdmin target = true → .superAdmins ∈ keys) :
    accountDiscipline.Body F (Change config isolation) isolation keys
      (numbered <$> disableBody u target) := by
  refine body_of_finds fun seen d _ _ => ?_
  refine Finds.bind (finds_reads _) ?_
  rintro (_ | current) d₁ -
  · exact finds_throw
  · refine Finds.bind (finds_ensure (Q := fun _ _ =>
      current.role = target.role ∧ current.status = target.status) ?_) ?_
    · intro h
      simpa using h
    rintro - d₁ ⟨hrole, hstatus⟩
    refine Finds.bind (finds_assertOtherSuperAdmin _ u) ?_
    rintro - d₂ ⟨-, hothers⟩
    refine finds_pure fun d₃ a d' hev hrun => ?_
    obtain ⟨row, d₄, hupdate, hrun⟩ := run_bind_ok.mp hrun
    rcases updateIfMatches_cases hupdate with ⟨rfl, rfl⟩ | ⟨user, huser, hmatch, rfl, hd₄⟩
    · cases hrun
    · obtain ⟨htrims, hnone⟩ := disableEffects_spec hrun
      refine Updated.done (updated_disable huser hd₄ htrims hnone hlifecycle ?_)
      intro hactive
      -- the row that is written is the one the guard was decided by
      have htarget : isActiveSuperAdmin target = true := by
        rw [isActiveSuperAdmin_iff] at hactive ⊢
        rw [← hrole, ← hstatus, ← matchesRow_role hmatch rfl, ← matchesRow_status hmatch rfl]
        exact hactive
      obtain ⟨v, hv, hvactive⟩ := hothers htarget
      exact ⟨hguard htarget, v, hv, hev.supers (hguard htarget) hvactive⟩

end Disable

section Transition

variable {config : Config} {isolation : Isolation} {keys : List AccountKey}
  {seen : AccountKey → Tables} {d d' : Tables} {actor : Actor} {u : ℕ} {target : UserRecord}
  {update : UserUpdate}

/-- The tables after a transition that found its row. -/
structure Transitioned (actor : Actor) (u : ℕ) (target : UserRecord) (update : UserUpdate)
    (d d' : Tables) (user : UserRecord) : Prop where
  found : d.users u = some user
  role : user.role = target.role
  status : user.status = target.status
  trimmed : ∃ d₁, Trims (putUser u (update.apply user) d.tick) d₁ ∧
    d' = { d₁ with roleChanges := (update.role.map fun role =>
      ⟨u, target.role, role, .manual actor.id⟩).toList ++ d₁.roleChanges } ∧
    (update.status = some .disabled ∨ privilegeIncreased target update = true → NoSessions d₁ u)

theorem transitionWrite_cases {r : Option UserRecord}
    (h : (transitionWrite actor u target update).run d.tick = .ok (r, d')) :
    d' = d.tick ∨ ∃ user, Transitioned actor u target update d d' user := by
  obtain ⟨row, d₁, hupdate, h⟩ := run_bind_ok.mp h
  rcases updateIfMatches_cases hupdate with ⟨rfl, rfl⟩ | ⟨user, huser, hmatch, rfl, rfl⟩
  · cases h
    exact .inl rfl
  · refine .inr ⟨user, huser, matchesRow_role hmatch rfl, matchesRow_status hmatch rfl, ?_⟩
    obtain ⟨_, d₂, h₂, h⟩ := run_bind_ok.mp h
    obtain ⟨_, d₃, h₃, h⟩ := run_bind_ok.mp h
    obtain ⟨_, d₄, h₄, h⟩ := run_bind_ok.mp h
    have ht₂ : Trims _ d₂ := moves_whenever Trims.refl _
      (fun d _ d' h => (disableEffects_spec h).1) _ _ _ h₂
    have ht₃ := (moves_whenever Keeps.refl _ (moves_deleteSessions u) _ _ _ h₃).trims
    have ht₄ := (moves_whenever Keeps.refl _ (moves_deleteResetLinks u) _ _ _ h₄).trims
    refine ⟨d₄, (ht₂.trans ht₃).trans ht₄, ?_, fun hends => ?_⟩
    · cases hrole : update.role with
      | none =>
        rw [hrole] at h
        cases h
        rfl
      | some role =>
        rw [hrole] at h
        cases h
        rfl
    · by_cases hdisabled : update.status = some .disabled
      · rw [hdisabled] at h₂
        exact ((disableEffects_spec h₂).2.trims ht₃).trims ht₄
      · have hraised : (privilegeIncreased target update && update.status != some .disabled) =
            true := by
          simpa [hdisabled] using hends
        rw [hraised] at h₃
        exact (noSessions_deleteSessions h₃).trims ht₄

/-- What `updateUser` knows of the update it makes. -/
structure Planned (target : UserRecord) (update : UserUpdate) : Prop where
  role : ∀ role, update.role = some role → role ≠ target.role
  hash : update.password_hash = none

theorem planned_userUpdate (target : UserRecord) (patch : UpdateUserRequest) :
    Planned target (userUpdate target patch) := by
  refine ⟨fun role hrole => ?_, rfl⟩
  exact bne_iff_ne.mp (Option.filter_eq_some_iff.mp hrole).2

/-- An update that is no guarded one leaves an active super admin active. -/
theorem guards_of_supers {user : UserRecord} (hrole : user.role = target.role)
    (hstatus : user.status = target.status) (hsuper : isActiveSuperAdmin user = true) :
    isActiveSuperAdmin (update.apply user) = true ∨ guardsLastSuperAdmin target update = true := by
  rw [isActiveSuperAdmin_iff] at hsuper ⊢
  rw [hrole, hstatus] at hsuper
  simp only [guardsLastSuperAdmin, apply_role, apply_status, hrole, hstatus, hsuper,
    decide_true, Bool.true_and, Bool.and_true]
  cases update.role with
  | some role => exact .inr rfl
  | none =>
    cases update.status with
    | none => exact .inl ⟨rfl, rfl⟩
    | some status =>
      cases status with
      | active => exact .inl ⟨rfl, rfl⟩
      | disabled => exact .inr rfl

theorem updated_transition {user : UserRecord} (hplan : Planned target update)
    (h : Transitioned actor u target update d d' user)
    (hlifecycle : update.role.isSome ∨ update.status.isSome → .lifecycle u ∈ keys)
    (hguard : guardsLastSuperAdmin target update = true →
      .superAdmins ∈ keys ∧ ∃ v, v ≠ u ∧ ActiveSuper d v)
    (hvetted : ∀ role, raisedRole target update = some role →
      ∀ since : AccountKey → Option Tables, (∀ key ∈ keys, since key = some (seen key)) →
        Vetted config isolation since d d' u none) :
    Updated config isolation keys seen d d' u user (update.apply user) := by
  obtain ⟨d₁, htrims, rfl, hends⟩ := h.trimmed
  have hnone : update.status = some .disabled ∨ privilegeIncreased target update = true →
      NoSessions d₁ u := hends
  refine ⟨h.found, htrims.users, htrims.saves, htrims.ssoRows, htrims.clock, ?_, ?_, ?_, ?_, ?_,
    htrims.disabled, htrims.reset, ?_, fun x hx => .inl (htrims.sessions x hx)⟩
  · intro hsuper
    exact (guards_of_supers h.role h.status hsuper).imp_right hguard
  · by_cases hchange : update.role.isSome ∨ update.status.isSome
    · exact .inl (hlifecycle hchange)
    · rw [not_or, Option.not_isSome_iff_eq_none, Option.not_isSome_iff_eq_none] at hchange
      refine .inr ⟨?_, ?_, htrims.identities⟩
      · rw [apply_role, hchange.1, Option.getD_none]
      · rw [apply_status, hchange.2, Option.getD_none]
  · exact fun i hi => .inl (htrims.identities ▸ hi)
  · intro hne since hsince
    rw [apply_role] at hne ⊢
    cases hrole : update.role with
    | none =>
      rw [hrole, Option.getD_none] at hne
      exact absurd rfl hne
    | some role =>
      refine ⟨⟨u, target.role, role, .manual actor.id⟩, ?_, ⟨rfl, h.role.symm, rfl⟩, nofun, ?_⟩
      · rw [hrole] at hvetted
        exact congrArg _ htrims.roleChanges
      · intro hraises hadmin
        refine hvetted role ?_ since hsince
        rw [raisedRole, hrole, Option.filter_some, if_pos]
        rw [Bool.and_eq_true, Bool.not_eq_true']
        exact ⟨hadmin, h.role ▸ hraises⟩
  · intro hraises x hx hu
    refine absurd hu (hnone (.inr ?_) x hx)
    rw [apply_role] at hraises
    cases hrole : update.role with
    | none =>
      rw [hrole, Option.getD_none, Raises, roleAtLeast_self] at hraises
      cases hraises
    | some role =>
      rw [hrole, Option.getD_some, Raises, not_roleAtLeast, h.role] at hraises
      simp only [privilegeIncreased, hrole, Option.any_some, roleAtLeast, decide_eq_true_eq]
      omega
  · refine fun x hx _ hu => ⟨fun hactive => ?_, ?_⟩
    · rw [apply_status]
      cases hstatus : update.status with
      | none => rwa [Option.getD_none]
      | some status =>
        cases status with
        | active => rfl
        | disabled => exact absurd hu (hnone (.inl hstatus) x hx)
    · rw [apply_password_hash, hplan.hash, Option.getD_none]

/-- `updateUser` in its transaction, on an account that is known to exist. -/
theorem body_transition {F : accountDiscipline.Fact} (hplan : Planned target update)
    (hexists : ∀ d, F.holds d → (d.users u).isSome)
    (hlifecycle : update.role.isSome ∨ update.status.isSome → .lifecycle u ∈ keys)
    (hguard : guardsLastSuperAdmin target update = true → .superAdmins ∈ keys) :
    accountDiscipline.Body F (Change config isolation) isolation keys
      (numbered <$> transitionBody config actor u target update) := by
  refine body_of_finds fun seen d hF hseen => ?_
  refine Finds.bind (finds_reads _) ?_
  rintro current d₁ ⟨hd₁, -⟩
  refine Finds.bind (finds_ensure (Q := fun _ d' => d₁ = d') fun _ => rfl) ?_
  rintro - _ rfl
  refine Finds.bind (finds_assertOtherSuperAdmin _ u) ?_
  rintro - d₂ ⟨hd₂, hothers⟩
  -- what the promotion's check leaves, if there is one
  refine Finds.bind (M := fun _ d₃ => Evolves isolation keys d₂ d₃ ∧
      ∀ role, raisedRole target update = some role → ∃ d₀, Evolves isolation keys d₂ d₀ ∧
        Evolves isolation keys d₀ d₃ ∧ ∀ i ∈ d₃.identities, i.user_id = u →
          TrustedAt config d₀.sso i.provider_id i.issuer) ?_ ?_
  · unfold assertPromotion
    cases hraised : raisedRole target update with
    | none => exact ⟨Discipline.Evolves.refl _ _ d₂, nofun⟩
    | some role =>
      refine Finds.bind (finds_reads _) ?_
      rintro stored d₀ ⟨hd₀, rfl⟩
      refine Finds.bind (finds_lowerTrust u d₀.sso none) ?_
      rintro lower d₃ ⟨hd₃, hlower⟩
      refine finds_ensure fun hempty => ⟨hd₀.trans hd₃, fun _ _ => ⟨d₀, hd₀, hd₃, ?_⟩⟩
      exact fun i hi hu => hlower hempty i hi hu nofun
  · rintro - d₃ ⟨hd₃, hraised⟩
    refine finds_pure fun d₄ r d' hev hrun => ?_
    rcases transitionWrite_cases hrun with rfl | ⟨user, htrans⟩
    · exact done_of_keeps (Keeps.refl _)
    · refine Updated.done (updated_transition hplan htrans hlifecycle ?_ ?_)
      · intro hguards
        obtain ⟨v, hv, hactive⟩ := hothers hguards
        exact ⟨hguard hguards, v, hv, Evolves.supers (hd₃.trans hev) (hguard hguards) hactive⟩
      · intro role hrole since hsince
        have hkey : .lifecycle u ∈ keys := by
          refine hlifecycle (.inl ?_)
          rw [(Option.filter_eq_some_iff.mp hrole).1]
          rfl
        obtain ⟨d₀, hd₀, hd₀₃, htrusted⟩ := hraised role hrole
        have hd : Evolves isolation keys d d₀ := (hd₁.trans hd₂).trans hd₀
        refine vetted_of_evolves hkey hsince ((hseen _ hkey).trans hd.grows) hd₀₃ hev ?_
          (fun i hi hu _ => htrusted i hi hu) ?_
        · exact hd₀₃.grows.users u (hd.grows.users u (hexists d hF))
        · obtain ⟨d₅, htrims, rfl, -⟩ := htrans.trimmed
          exact fun i hi _ _ => htrims.identities ▸ hi

end Transition

end FerrumNexus.Accounts
