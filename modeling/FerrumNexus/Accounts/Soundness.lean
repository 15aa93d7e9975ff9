import FerrumNexus.Accounts.SessionCommits

/-!
# The account programs are sound

Which keys a program takes, and what it learned before them. A program that
opens a transaction under more keys than its commit needs is sound as well, so a
section is judged by the keys it asks for, whatever else is held.
-/
namespace FerrumNexus.Accounts

open Saga

variable {config : Config} {isolation : Isolation} {slot : ℕ} {F : accountDiscipline.Fact}
  {keys : List AccountKey} {α : Type}

-- a program is not to be run while its rule is looked for
attribute [local irreducible] ensure

section Rules

/-- A program that is sound wherever `keys` are held. -/
def Secured (config : Config) (isolation : Isolation) (slot : ℕ) (F : accountDiscipline.Fact)
    (keys : List AccountKey) (fn : Held → AccountProgram α) : Prop :=
  ∀ held : Held, keys ⊆ held.map Prod.fst →
    accountDiscipline.Sound F (Change config isolation) slot held (fn held)

variable {fn : Held → AccountProgram α}

theorem secured_locks {key : AccountKey} (h : Secured config isolation slot F (key :: keys) fn) :
    Secured config isolation slot F keys (locks slot key fn) := by
  intro held hheld
  refine Discipline.sound_underLease _ key fun token => h _ ?_
  rw [List.map_append]
  refine List.cons_subset.mpr ⟨List.mem_append_right _ (List.mem_singleton_self key), ?_⟩
  exact fun k hk => List.mem_append_left _ (hheld hk)

theorem secured_transaction {body : AccountQuery (AccountWrite α)}
    (h : ∀ held, keys ⊆ held → accountDiscipline.Body F (Change config isolation) isolation held
      (numbered <$> body)) : Secured config isolation slot F keys (transaction isolation slot body) :=
  fun held hheld => Discipline.sound_transact _ _ (h (held.map Prod.fst) hheld)

theorem Secured.sound (h : Secured config isolation slot F [] fn) :
    accountDiscipline.Sound F (Change config isolation) slot [] (fn []) :=
  h [] (List.nil_subset _)

/-- Taking the keys of providers first. -/
theorem secured_underProviderLocks (h : ∀ keys, Secured config isolation slot F keys fn)
    (providerIds : List String) :
    Secured config isolation slot F keys (underProviderLocks slot providerIds fn) := by
  unfold underProviderLocks
  induction sortedIds providerIds generalizing keys with
  | nil => exact h keys
  | cons id ids ih => exact secured_locks ih

end Rules

section Users

/-- The account is there, and accounts stay. -/
def Known (u : ℕ) : accountDiscipline.Fact where
  holds d := (d.users u).isSome
  stable _ _ h hg := hg.users u h

theorem sound_transition {actor : Actor} {u : ℕ} {target : UserRecord} {update : UserUpdate}
    (hplan : Planned target update) (hexists : ∀ d, F.holds d → (d.users u).isSome) :
    accountDiscipline.Sound F (Change config isolation) slot []
      (transition config isolation slot actor u target update) := by
  have hcommit : ∀ keys : List AccountKey,
      (update.role.isSome ∨ update.status.isSome → .lifecycle u ∈ keys) →
      (guardsLastSuperAdmin target update = true → .superAdmins ∈ keys) →
      Secured config isolation slot F keys
        (transaction isolation slot (transitionBody config actor u target update)) := by
    intro keys hlifecycle hguard
    refine secured_transaction fun held hheld => ?_
    exact body_transition hplan hexists (fun h => hheld (hlifecycle h)) fun h => hheld (hguard h)
  -- the keys follow the update, as it was worked out from the row that was read
  have hlifecycle : ∀ keys : List AccountKey,
      (guardsLastSuperAdmin target update = true → .superAdmins ∈ keys) →
      Secured config isolation slot F keys (if update.role.isSome || update.status.isSome then
        locks slot (.lifecycle u)
          (transaction isolation slot (transitionBody config actor u target update))
      else transaction isolation slot (transitionBody config actor u target update)) := by
    intro keys hguard
    split
    · refine secured_locks (hcommit _ (fun _ => List.mem_cons_self) fun h => ?_)
      exact List.mem_cons_of_mem _ (hguard h)
    · rename_i hnone
      refine hcommit keys (fun h => absurd ?_ hnone) hguard
      exact Bool.or_eq_true_iff.mpr h
  unfold transition
  dsimp only [underTransitionKeys]
  split
  · exact (secured_locks (hlifecycle _ fun _ => List.mem_cons_self)).sound
  · rename_i hguard
    exact (hlifecycle [] fun h => absurd h hguard).sound

theorem sound_updateUser (actor : Actor) (targetId : ℕ) (patch : UpdateUserRequest) :
    accountDiscipline.Sound F (Change config isolation) slot []
      (updateUser config isolation slot actor targetId patch) := by
  refine Discipline.sound_learn (fun _ => Known targetId) (fun d _ => ?_) fun target => ?_
  · refine wpe_call (M := fun row d' => row = d'.users targetId) (F := fun _ _ => True)
      (wpe_look fun _ _ => rfl) ?_ fun _ _ h => h
    rintro (_ | target) d' hrow
    · exact trivial
    · exact congrArg Option.isSome hrow.symm
  · refine (Discipline.sound_watch _).bind fun _ => Discipline.sound_ite (fun _ =>
      Discipline.sound_pure _) fun _ => ?_
    have hknown : ∀ d, (F.and (Known targetId)).holds d → (d.users targetId).isSome :=
      fun _ h => h.2
    refine (sound_transition (planned_userUpdate target patch) hknown).bind ?_
    rintro (_ | row)
    · exact Discipline.sound_throw _
    · exact Discipline.sound_pure _

theorem sound_disableUser (config : Config) (actor : Actor) (userId : ℕ) (reason : String) :
    accountDiscipline.Sound F (Change config isolation) slot []
      (disableUser isolation slot actor userId reason) := by
  refine (Discipline.sound_watch _).bind fun _ => (Discipline.sound_watch _).bind fun target => ?_
  refine (Discipline.sound_watch _).bind fun _ => (Discipline.sound_watch _).bind fun _ => ?_
  have hcommit : ∀ keys : List AccountKey,
      (isActiveSuperAdmin target = true → .superAdmins ∈ keys) →
      Secured config isolation slot F keys (locks slot (.lifecycle userId)
        (transaction isolation slot (disableBody userId target))) := by
    intro keys hguard
    refine secured_locks (secured_transaction fun held hheld => body_disable ?_ fun h => ?_)
    · exact hheld List.mem_cons_self
    · exact hheld (List.mem_cons_of_mem _ (hguard h))
  dsimp only
  split
  · exact (secured_locks (hcommit _ fun _ => List.mem_cons_self)).sound
  · rename_i hguard
    exact (hcommit [] fun h => absurd h hguard).sound

end Users

section SignOn

variable {provider : SsoProviderSettings} {claims : IdTokenClaims}

theorem sound_deprovision (userId : ℕ) (provider : SsoProviderSettings) :
    accountDiscipline.Sound F (Change config isolation) slot []
      (deprovision config isolation slot userId provider) := by
  refine (secured_locks (secured_locks (secured_transaction fun held hheld => ?_))).sound
  exact body_deprovision (hheld List.mem_cons_self)

theorem sound_signIn (mapping : ClaimMapping) (plan : SignInPlan) :
    accountDiscipline.Sound F (Change config isolation) slot []
      (signIn config isolation slot provider claims mapping plan) := by
  refine (Discipline.sound_watch _).bind fun orgExists => ?_
  cases plan with
  | provision =>
    refine (secured_locks (secured_transaction fun held _ => ?_)).sound
    exact body_signIn trivial
  | link userId explicit initiatingSessionId =>
    refine (secured_locks (secured_locks (secured_transaction fun held hheld => ?_))).sound
    exact body_signIn (hheld List.mem_cons_self)
  | returning userId identity initiatingSessionId =>
    refine (secured_locks (secured_transaction fun held hheld => ?_)).sound
    exact body_signIn (hheld List.mem_cons_self)

theorem sound_callback (providerId : String) (claims : IdTokenClaims)
    (link current : Option (ℕ × ℕ)) :
    accountDiscipline.Sound F (Change config isolation) slot []
      (callback config isolation slot providerId claims link current) := by
  refine (Discipline.sound_watch _).bind fun stored => ?_
  refine (Discipline.sound_watch _).bind fun provider => ?_
  refine (Discipline.sound_watch _).bind fun _ => ?_
  cases link with
  | some transaction => exact (Discipline.sound_watch _).bind fun plan => sound_signIn _ plan
  | none =>
    refine (Discipline.sound_watch _).bind ?_
    rintro (plan | (_ | userId))
    · exact sound_signIn _ plan
    · exact Discipline.sound_throw _
    · exact (sound_deprovision userId provider).bind fun _ => Discipline.sound_throw _

theorem sound_updateAdminSettings (actor : Actor) (patch : SettingsRequest) :
    accountDiscipline.Sound F (Change config isolation) slot []
      (updateAdminSettings config isolation slot actor patch) := by
  refine (Discipline.sound_watch _).bind ?_
  rintro (_ | plan)
  · exact Discipline.sound_pure _
  · refine (secured_locks (secured_underProviderLocks (fun keys => secured_locks ?_) _)).sound
    exact secured_transaction fun held _ => body_save config plan

theorem sound_unlinkIdentity (config : Config) (actor : Actor)
    (userId identityId : ℕ) :
    accountDiscipline.Sound F (Change config isolation) slot []
      (unlinkIdentity isolation slot actor userId identityId) := by
  refine (Discipline.sound_watch _).bind fun target => (Discipline.sound_watch _).bind fun _ => ?_
  exact (secured_transaction fun held _ => body_unlink userId identityId).sound

end SignOn

section Sessions

theorem sound_register (input : RegisterRequest) :
    accountDiscipline.Sound F (Change config isolation) slot []
      (register config isolation slot input) := by
  refine (Discipline.sound_watch _).bind fun draft => ?_
  refine Discipline.Sound.bind ?_ fun outcome => ?_
  · unfold registerUnderLocks
    split
    · exact (secured_locks (secured_locks (secured_transaction fun held _ =>
        body_founder draft.1))).sound
    · exact (secured_locks (secured_transaction fun held _ => body_member draft.1)).sound
  · refine Discipline.sound_ite (fun _ => Discipline.sound_pure _) fun _ => ?_
    refine Discipline.Sound.map ?_ _
    exact (secured_transaction fun held _ => body_issueSession outcome.userId _).sound

theorem sound_login (email password : String) :
    accountDiscipline.Sound F (Change config isolation) slot []
      (login config isolation slot email password) := by
  refine (Discipline.sound_watch _).bind fun found => ?_
  refine (secured_locks (secured_locks (secured_locks (secured_transaction fun held hheld => ?_)))).sound
  exact body_login (hheld (List.mem_cons_of_mem _ List.mem_cons_self))

theorem sound_requestPasswordReset (email : String) :
    accountDiscipline.Sound F (Change config isolation) slot []
      (requestPasswordReset config isolation slot email) := by
  refine (Discipline.sound_watch _).bind ?_
  rintro (_ | found)
  · exact Discipline.sound_pure _
  · exact (secured_locks (secured_transaction fun held _ => body_mint found.1)).sound

theorem sound_resetPassword (token : ℕ) (newPassword : String) :
    accountDiscipline.Sound F (Change config isolation) slot []
      (resetPassword config isolation slot token newPassword) := by
  refine (Discipline.sound_watch _).bind fun _ => (Discipline.sound_watch _).bind fun link => ?_
  refine (Discipline.sound_watch _).bind fun _ => (Discipline.sound_watch _).bind fun hash => ?_
  refine (secured_locks (secured_locks (secured_locks (secured_transaction fun held _ => ?_)))).sound
  exact body_reset config token link.user_id hash

end Sessions

theorem program_sound {p : AccountProgram α} (h : accountDiscipline.Sound
    (Discipline.Fact.none accountDiscipline) (Change config isolation) slot [] p) (s : World) :
    wp (accountDiscipline.Kept slot) (accountDiscipline.Guar (Change config isolation) slot)
      p.toProgram (fun _ _ => True) s :=
  Discipline.Sound.toProgram h s

/-- Every request keeps to the discipline, and each of its commits is a
`Change`. -/
theorem accountProgram_sound (config : Config) (isolation : Isolation) (slot : ℕ) (op : AccountOp)
    (s : World) : wp (accountDiscipline.Kept slot)
      (accountDiscipline.Guar (Change config isolation) slot)
      (accountProgram config isolation slot op) (fun _ _ => True) s := by
  cases op with
  | updateUser actor targetId patch =>
    rw [accountProgram]
    exact program_sound (sound_updateUser actor targetId patch) s
  | disableUser actor userId reason =>
    rw [accountProgram]
    exact program_sound (sound_disableUser config actor userId reason) s
  | callback providerId claims link current =>
    rw [accountProgram]
    exact program_sound (sound_callback providerId claims link current) s
  | updateAdminSettings actor patch =>
    rw [accountProgram]
    exact program_sound (sound_updateAdminSettings actor patch) s
  | unlinkIdentity actor userId identityId =>
    rw [accountProgram]
    exact program_sound (sound_unlinkIdentity config actor userId identityId) s
  | register input =>
    rw [accountProgram]
    exact program_sound (sound_register input) s
  | login email password =>
    rw [accountProgram]
    exact program_sound (sound_login email password) s
  | requestPasswordReset email =>
    rw [accountProgram]
    exact program_sound (sound_requestPasswordReset email) s
  | resetPassword token newPassword =>
    rw [accountProgram]
    exact program_sound (sound_resetPassword token newPassword) s

end FerrumNexus.Accounts
