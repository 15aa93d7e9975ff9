import FerrumNexus.Accounts.Authentication

/-!
# What a commit does to the accounts

The discipline of the account keys, and what is to hold of every commit: an
active super admin stays, a role is raised only where every way into the account
may have it, and a session that stays finds its account as it was. A commit
writes no row of `users`, or one that was there, or a new one; a lemma for each
says what is left to show.
-/
namespace FerrumNexus.Accounts

open Saga
open Platform (Role UserStatus roleRank roleAtLeast)

section Discipline

def ActiveSuper (d : Tables) (u : ℕ) : Prop :=
  ∃ user, d.users u = some user ∧ isActiveSuperAdmin user = true

/-- What the lifecycle key of an account protects: its role and status, and
that it gets no identity. -/
structure Settled (u : ℕ) (d d' : Tables) : Prop where
  account : ∀ user, d.users u = some user →
    ∃ user', d'.users u = some user' ∧ user'.role = user.role ∧ user'.status = user.status
  identities : (d.users u).isSome → ∀ i' ∈ d'.identities, i'.user_id = u →
    ∃ i ∈ d.identities, i.user_id = u ∧ i.provider_id = i'.provider_id ∧ i.issuer = i'.issuer

def protects : AccountKey → Tables → Tables → Prop
  | .superAdmins, d, d' => ∀ u, ActiveSuper d u → ActiveSuper d' u
  | .lifecycle u, d, d' => Settled u d d'
  | _, _, _ => True

/-- Accounts stay, and so do the past values of the settings. -/
structure Grows (d d' : Tables) : Prop where
  users : ∀ u, (d.users u).isSome → (d'.users u).isSome
  saves : d.saves ≤ d'.saves
  ssoRows : ∀ v ≤ d.saves, d'.ssoRows v = d.ssoRows v

variable {u : ℕ} {d d' d'' : Tables}

theorem Settled.refl (u : ℕ) (d : Tables) : Settled u d d :=
  ⟨fun user h => ⟨user, h, rfl, rfl⟩, fun _ i' hi' hu => ⟨i', hi', hu, rfl, rfl⟩⟩

theorem Settled.trans (h : Settled u d d') (h' : Settled u d' d'') : Settled u d d'' where
  account user huser := by
    obtain ⟨user', huser', hrole, hstatus⟩ := h.account user huser
    obtain ⟨user'', huser'', hrole', hstatus'⟩ := h'.account user' huser'
    exact ⟨user'', huser'', hrole'.trans hrole, hstatus'.trans hstatus⟩
  identities hsome i'' hi'' hu := by
    obtain ⟨user, huser⟩ := Option.isSome_iff_exists.mp hsome
    obtain ⟨user', huser', -⟩ := h.account user huser
    obtain ⟨i', hi', hu', hp', hs'⟩ := h'.identities (huser' ▸ rfl) i'' hi'' hu
    obtain ⟨i, hi, hu, hp, hs⟩ := h.identities hsome i' hi' hu'
    exact ⟨i, hi, hu, hp.trans hp', hs.trans hs'⟩

theorem protects_refl (key : AccountKey) (d : Tables) : protects key d d := by
  cases key with
  | superAdmins => exact fun _ h => h
  | lifecycle u => exact Settled.refl u d
  | _ => trivial

theorem protects_trans (key : AccountKey) (h : protects key d d') (h' : protects key d' d'') :
    protects key d d'' := by
  cases key with
  | superAdmins => exact fun u hu => h' u (h u hu)
  | lifecycle u => exact Settled.trans h h'
  | _ => trivial

theorem Grows.refl (d : Tables) : Grows d d := ⟨fun _ h => h, le_rfl, fun _ _ => rfl⟩

theorem Grows.trans (h : Grows d d') (h' : Grows d' d'') : Grows d d'' where
  users u hu := h'.users u (h.users u hu)
  saves := h.saves.trans h'.saves
  ssoRows v hv := (h'.ssoRows v (hv.trans h.saves)).trans (h.ssoRows v hv)

/-- What the holders of the account keys are spared. -/
def accountDiscipline : Discipline AccountKey Tables where
  protects := protects
  grows := Grows
  protects_refl := protects_refl
  protects_trans key _ _ _ := protects_trans key
  grows_refl := Grows.refl
  grows_trans _ _ _ := Grows.trans

end Discipline

section Change

variable (config : Config) (isolation : Isolation)

/-- `role'` is above `role`. -/
def Raises (role role' : Role) : Prop := roleAtLeast role role' = false

/-- Every identity of the account, but those at `promoting`, was found at a
provider trusted with administrators. The settings are those of a save: the
present one where transactions are serialized, and never an older one than when
the account's key was last taken. -/
def Vetted (since : AccountKey → Option Tables) (d d' : Tables) (u : ℕ)
    (promoting : Option String) : Prop :=
  ∃ v ≤ d.saves, (∃ taken, since (.lifecycle u) = some taken ∧ taken.saves ≤ v) ∧
    (isolation = .serialized → v = d.saves) ∧
    ∀ i ∈ d'.identities, i.user_id = u → some i.provider_id ≠ promoting →
      TrustedAt config (d.ssoRows v) i.provider_id i.issuer

/-- The provider whose claims make a change. -/
def RoleSource.promoting : RoleSource → Option String
  | .manual _ => none
  | .claims providerId => some providerId

/-- A change of role is in the audit log. One by claims never concerns the
role `super_admin`, and one to an administrator's found the identities
vetted. -/
structure Audited (since : AccountKey → Option Tables) (d d' : Tables) (u : ℕ)
    (role role' : Role) (change : RoleChange) : Prop where
  logged : d'.roleChanges = change :: d.roleChanges
  about : change.user_id = u ∧ change.from_role = role ∧ change.to_role = role'
  claims : ∀ p, change.source = .claims p → role ≠ .super_admin ∧ role' ≠ .super_admin
  vetted : Raises role role' → roleAtLeast role' .admin = true →
    Vetted config isolation since d d' u change.source.promoting

/-- The account of a session is active, with the password it was opened with if
it was opened with one. -/
def Admits (d : Tables) (x : SessionRecord) : Prop :=
  ∃ user, d.users x.user_id = some user ∧ user.status = .active ∧
    ∀ secret, x.secret = some secret → user.password_hash = secret

/-- What holds of every commit. -/
structure Change (since : AccountKey → Option Tables) (d d' : Tables) : Prop where
  supers : (∃ u, ActiveSuper d u) → ∃ u, ActiveSuper d' u
  links : ∀ i ∈ d'.identities, i ∉ d.identities → i.origin = .automatic → ∀ user,
    d.users i.user_id = some user ∨ d'.users i.user_id = some user →
      roleAtLeast user.role .admin = false
  provisioned : ∀ i ∈ d'.identities, i ∉ d.identities → i.origin = .provisioned →
    ∀ user, d'.users i.user_id = some user → user.role ≠ .super_admin
  roles : ∀ u user user', d.users u = some user → d'.users u = some user' →
    user.role ≠ user'.role →
      ∃ change, Audited config isolation since d d' u user.role user'.role change
  fresh : ∀ u user user', d.users u = some user → d'.users u = some user' →
    Raises user.role user'.role → ∀ x ∈ d'.sessions, x.user_id = u →
      x.committed = d'.clock ∧ ∀ y ∈ d'.sessions, y.user_id = u → y = x
  clock : d'.clock = d.clock + 1
  disabled : ∀ u, d'.disabledAt u = d.disabledAt u ∨
    (d'.disabledAt u = d'.clock ∧ ∀ x ∈ d'.sessions, x.user_id ≠ u)
  reset : ∀ u, d'.resetAt u = d.resetAt u ∨
    (d'.resetAt u = d'.clock ∧ ∀ x ∈ d'.sessions, x.user_id ≠ u)
  kept : ∀ x ∈ d'.sessions, x ∈ d.sessions → ∀ user, d.users x.user_id = some user →
    ∃ user', d'.users x.user_id = some user' ∧ (user.status = .active → user'.status = .active) ∧
      user'.password_hash = user.password_hash
  opened : ∀ x ∈ d'.sessions, x ∉ d.sessions →
    x.committed = d'.clock ∧ ((x.registration = true ∧ d'.users = d.users) ∨
      (x.registration = false ∧ Admits d' x))

end Change

section Kinds

variable (config : Config) (isolation : Isolation) (keys : List AccountKey)
  (seen : AccountKey → Tables) (d d' : Tables)

/-- What is to be shown of a commit under `keys`, each taken when the data was
as `seen` has it. -/
def Done : Prop :=
  Grows d d' ∧ (∀ key, key ∉ keys → protects key d d') ∧
    ∀ since : AccountKey → Option Tables, (∀ key ∈ keys, since key = some (seen key)) →
      Change config isolation since d d'

/-- A commit that writes no row of `users`. -/
structure Untouched : Prop where
  users : d'.users = d.users
  saves : d.saves ≤ d'.saves
  ssoRows : ∀ v ≤ d.saves, d'.ssoRows v = d.ssoRows v
  identities : ∀ i ∈ d'.identities, i ∈ d.identities
  clock : d'.clock = d.clock + 1
  disabled : d'.disabledAt = d.disabledAt
  reset : d'.resetAt = d.resetAt
  sessions : ∀ x ∈ d'.sessions, x ∈ d.sessions ∨ x.committed = d'.clock ∧ x.registration = true

/-- A commit that writes the row of the account `u`. -/
structure Updated (u : ℕ) (user user' : UserRecord) : Prop where
  found : d.users u = some user
  users : d'.users = Function.update d.users u (some user')
  saves : d'.saves = d.saves
  ssoRows : d'.ssoRows = d.ssoRows
  clock : d'.clock = d.clock + 1
  supers : isActiveSuperAdmin user = true → isActiveSuperAdmin user' = true ∨
    (.superAdmins ∈ keys ∧ ∃ v, v ≠ u ∧ ActiveSuper d v)
  settled : .lifecycle u ∈ keys ∨
    (user'.role = user.role ∧ user'.status = user.status ∧ d'.identities = d.identities)
  identities : ∀ i ∈ d'.identities, i ∈ d.identities ∨ (i.user_id = u ∧ i.origin ≠ .provisioned ∧
    (i.origin = .automatic →
      roleAtLeast user.role .admin = false ∧ roleAtLeast user'.role .admin = false))
  roles : user.role ≠ user'.role → ∀ since : AccountKey → Option Tables,
    (∀ key ∈ keys, since key = some (seen key)) →
      ∃ change, Audited config isolation since d d' u user.role user'.role change
  fresh : Raises user.role user'.role → ∀ x ∈ d'.sessions, x.user_id = u →
    x.committed = d'.clock ∧ ∀ y ∈ d'.sessions, y.user_id = u → y = x
  disabled : ∀ w, d'.disabledAt w = d.disabledAt w ∨
    (d'.disabledAt w = d'.clock ∧ ∀ x ∈ d'.sessions, x.user_id ≠ w)
  reset : ∀ w, d'.resetAt w = d.resetAt w ∨
    (d'.resetAt w = d'.clock ∧ ∀ x ∈ d'.sessions, x.user_id ≠ w)
  kept : ∀ x ∈ d'.sessions, x ∈ d.sessions → x.user_id = u →
    (user.status = .active → user'.status = .active) ∧ user'.password_hash = user.password_hash
  opened : ∀ x ∈ d'.sessions, x ∈ d.sessions ∨
    (x.user_id = u ∧ x.committed = d'.clock ∧ x.registration = false ∧ user'.status = .active ∧
      ∀ secret, x.secret = some secret → user'.password_hash = secret)

/-- A commit that creates the account `u`. -/
structure Created (u : ℕ) (user : UserRecord) : Prop where
  absent : d.users u = none
  users : d'.users = Function.update d.users u (some user)
  saves : d'.saves = d.saves
  ssoRows : d'.ssoRows = d.ssoRows
  clock : d'.clock = d.clock + 1
  identities : ∀ i ∈ d'.identities, i ∈ d.identities ∨
    (i.user_id = u ∧ i.origin = .provisioned ∧ user.role ≠ .super_admin)
  disabled : d'.disabledAt = d.disabledAt
  reset : d'.resetAt = d.resetAt
  sessions : ∀ x ∈ d'.sessions, x ∈ d.sessions ∨
    (x.user_id = u ∧ x.committed = d'.clock ∧ x.registration = false ∧ user.status = .active ∧
      x.secret = none)

variable {config isolation keys seen d d'}

theorem Untouched.done (h : Untouched d d') : Done config isolation keys seen d d' := by
  have hsuper : ∀ u, ActiveSuper d' u ↔ ActiveSuper d u := fun u => by
    rw [ActiveSuper, ActiveSuper, h.users]
  have hsame : ∀ {u user user'}, d.users u = some user → d'.users u = some user' → user = user' := by
    intro u user user' huser huser'
    exact Option.some.inj (huser.symm.trans ((congrFun h.users u) ▸ huser'))
  refine ⟨⟨fun u hu => h.users ▸ hu, h.saves, h.ssoRows⟩, ?_, fun since _ => ?_⟩
  · intro key _
    cases key with
    | superAdmins => exact fun u hu => (hsuper u).mpr hu
    | lifecycle u =>
      refine ⟨fun user huser => ⟨user, h.users ▸ huser, rfl, rfl⟩, fun _ i hi hu => ?_⟩
      exact ⟨i, h.identities i hi, hu, rfl, rfl⟩
    | _ => trivial
  · refine ⟨fun ⟨u, hu⟩ => ⟨u, (hsuper u).mpr hu⟩, ?_, ?_, ?_, ?_, h.clock, ?_, ?_, ?_, ?_⟩
    · exact fun i hi hnew => absurd (h.identities i hi) hnew
    · exact fun i hi hnew => absurd (h.identities i hi) hnew
    · intro u user user' huser huser' hne
      exact absurd (congrArg (·.role) (hsame huser huser')) hne
    · intro u user user' huser huser' hraises
      rw [Raises, hsame huser huser', roleAtLeast_self] at hraises
      cases hraises
    · exact fun u => .inl (congrFun h.disabled u)
    · exact fun u => .inl (congrFun h.reset u)
    · exact fun x _ _ user huser => ⟨user, h.users ▸ huser, id, rfl⟩
    · intro x hx hnew
      rcases h.sessions x hx with hold | ⟨hcommitted, hreg⟩
      · exact absurd hold hnew
      · exact ⟨hcommitted, .inl ⟨hreg, h.users⟩⟩

theorem Updated.done {u : ℕ} {user user' : UserRecord}
    (h : Updated config isolation keys seen d d' u user user') :
    Done config isolation keys seen d d' := by
  have hself : d'.users u = some user' := by rw [h.users, Function.update_self]
  have hother : ∀ {w}, w ≠ u → d'.users w = d.users w := fun {w} hw => by
    rw [h.users, Function.update_of_ne hw]
  have hsuper : ∀ {w}, w ≠ u → ActiveSuper d w → ActiveSuper d' w := by
    rintro w hw ⟨row, hrow, hactive⟩
    exact ⟨row, (hother hw).trans hrow, hactive⟩
  refine ⟨⟨fun w hw => ?_, h.saves.ge, fun v _ => congrFun h.ssoRows v⟩, ?_, fun since hsince => ?_⟩
  · by_cases hwu : w = u
    · exact hwu ▸ hself ▸ rfl
    · exact (hother hwu).symm ▸ hw
  · intro key hkey
    cases key with
    | superAdmins =>
      intro w hw
      by_cases hwu : w = u
      · obtain ⟨row, hrow, hactive⟩ := hw
        rw [hwu, h.found, Option.some.injEq] at hrow
        rcases h.supers (hrow ▸ hactive) with hstill | ⟨hheld, -⟩
        · exact hwu ▸ ⟨user', hself, hstill⟩
        · exact absurd hheld hkey
      · exact hsuper hwu hw
    | lifecycle w =>
      by_cases hwu : w = u
      · subst hwu
        obtain ⟨hrole, hstatus, hids⟩ := h.settled.resolve_left hkey
        refine ⟨fun row hrow => ⟨user', hself, ?_⟩, fun _ i hi hu => ?_⟩
        · obtain rfl := Option.some.inj (h.found.symm.trans hrow)
          exact ⟨hrole, hstatus⟩
        · exact ⟨i, hids ▸ hi, hu, rfl, rfl⟩
      · refine ⟨fun row hrow => ⟨row, (hother hwu).trans hrow, rfl, rfl⟩, fun _ i hi hu => ?_⟩
        rcases h.identities i hi with hold | ⟨hnew, -⟩
        · exact ⟨i, hold, hu, rfl, rfl⟩
        · exact absurd (hu.symm.trans hnew) hwu
    | _ => trivial
  · refine ⟨?_, ?_, ?_, ?_, ?_, h.clock, h.disabled, h.reset, ?_, ?_⟩
    · rintro ⟨w, hw⟩
      by_cases hwu : w = u
      · obtain ⟨row, hrow, hactive⟩ := hw
        rw [hwu, h.found, Option.some.injEq] at hrow
        rcases h.supers (hrow ▸ hactive) with hstill | ⟨-, v, hv, hactive'⟩
        · exact ⟨u, user', hself, hstill⟩
        · exact ⟨v, hsuper hv hactive'⟩
      · exact ⟨w, hsuper hwu hw⟩
    · intro i hi hnew hauto row hrow
      obtain ⟨hu, -, hroles⟩ := (h.identities i hi).resolve_left hnew
      rcases hrow with hrow | hrow
      · obtain rfl := Option.some.inj (h.found.symm.trans (hu ▸ hrow))
        exact (hroles hauto).1
      · obtain rfl := Option.some.inj (hself.symm.trans (hu ▸ hrow))
        exact (hroles hauto).2
    · intro i hi hnew hprov
      exact absurd hprov ((h.identities i hi).resolve_left hnew).2.1
    · intro w row row' hrow hrow' hne
      by_cases hwu : w = u
      · subst hwu
        obtain rfl := Option.some.inj (h.found.symm.trans hrow)
        obtain rfl := Option.some.inj (hself.symm.trans hrow')
        exact h.roles hne since hsince
      · rw [hother hwu, hrow, Option.some.injEq] at hrow'
        exact absurd (congrArg (·.role) hrow') hne
    · intro w row row' hrow hrow' hraises
      by_cases hwu : w = u
      · subst hwu
        obtain rfl := Option.some.inj (h.found.symm.trans hrow)
        obtain rfl := Option.some.inj (hself.symm.trans hrow')
        exact h.fresh hraises
      · rw [hother hwu, hrow, Option.some.injEq] at hrow'
        rw [hrow', Raises, roleAtLeast_self] at hraises
        cases hraises
    · intro x hx hold row hrow
      by_cases hxu : x.user_id = u
      · obtain rfl := Option.some.inj (h.found.symm.trans (hxu ▸ hrow))
        exact ⟨user', hxu ▸ hself, h.kept x hx hold hxu⟩
      · exact ⟨row, (hother hxu).trans hrow, id, rfl⟩
    · intro x hx hnew
      obtain ⟨hu, hcommitted, hreg, hactive, hsecret⟩ := (h.opened x hx).resolve_left hnew
      exact ⟨hcommitted, .inr ⟨hreg, user', hu ▸ hself, hactive, hsecret⟩⟩

theorem Created.done {u : ℕ} {user : UserRecord} (h : Created d d' u user) :
    Done config isolation keys seen d d' := by
  have hself : d'.users u = some user := by rw [h.users, Function.update_self]
  have hkeep : ∀ {w row}, d.users w = some row → d'.users w = some row := by
    intro w row hrow
    have hwu : w ≠ u := by
      rintro rfl
      rw [h.absent] at hrow
      cases hrow
    rw [h.users, Function.update_of_ne hwu, hrow]
  have hsame : ∀ {w row row'}, d.users w = some row → d'.users w = some row' → row = row' :=
    fun hrow hrow' => Option.some.inj ((hkeep hrow).symm.trans hrow')
  have hsuper : ∀ w, ActiveSuper d w → ActiveSuper d' w :=
    fun w ⟨row, hrow, hactive⟩ => ⟨row, hkeep hrow, hactive⟩
  refine ⟨⟨fun w hw => ?_, h.saves.ge, fun v _ => congrFun h.ssoRows v⟩, ?_, fun since _ => ?_⟩
  · obtain ⟨row, hrow⟩ := Option.isSome_iff_exists.mp hw
    exact hkeep hrow ▸ rfl
  · intro key _
    cases key with
    | superAdmins => exact hsuper
    | lifecycle w =>
      refine ⟨fun row hrow => ⟨row, hkeep hrow, rfl, rfl⟩, fun hsome i hi hu => ?_⟩
      rcases h.identities i hi with hold | ⟨hnew, -⟩
      · exact ⟨i, hold, hu, rfl, rfl⟩
      · rw [← hu, hnew, h.absent] at hsome
        cases hsome
    | _ => trivial
  · refine ⟨fun ⟨w, hw⟩ => ⟨w, hsuper w hw⟩, ?_, ?_, ?_, ?_, h.clock, ?_, ?_, ?_, ?_⟩
    · intro i hi hnew hauto
      obtain ⟨-, hprov, -⟩ := (h.identities i hi).resolve_left hnew
      rw [hprov] at hauto
      cases hauto
    · intro i hi hnew _ row hrow
      obtain ⟨hu, -, hrole⟩ := (h.identities i hi).resolve_left hnew
      obtain rfl := Option.some.inj (hself.symm.trans (hu ▸ hrow))
      exact hrole
    · intro w row row' hrow hrow' hne
      exact absurd (congrArg (·.role) (hsame hrow hrow')) hne
    · intro w row row' hrow hrow' hraises
      rw [Raises, hsame hrow hrow', roleAtLeast_self] at hraises
      cases hraises
    · exact fun w => .inl (congrFun h.disabled w)
    · exact fun w => .inl (congrFun h.reset w)
    · exact fun x _ _ row hrow => ⟨row, hkeep hrow, id, rfl⟩
    · intro x hx hnew
      obtain ⟨hu, hcommitted, hreg, hactive, hsecret⟩ := (h.sessions x hx).resolve_left hnew
      refine ⟨hcommitted, .inr ⟨hreg, user, hu ▸ hself, hactive, ?_⟩⟩
      rw [hsecret]
      nofun

end Kinds

end FerrumNexus.Accounts
