import FerrumNexus.Accounts.Soundness

/-!
# Runs of the account services

What holds in every state and of every commit of a run, with any number of
requests in progress. That a super admin stays and that administrators are
vetted needs nothing of the run. That a session never outlives a disable needs
registrations to open theirs in time.
-/
namespace FerrumNexus.Accounts

open Saga
open Platform (Role UserStatus roleRank roleAtLeast)

variable {config : Config} {isolation : Isolation} {ok : World → AccountOp → Prop} {s s' : World}
  {ts : ℕ → Option (Program World Chance Unit)}

section Commits

/-- Every action of a run is no commit, or a commit as every transaction makes
it. -/
theorem change_of_transition {init : World → Prop}
    (h : Pool.Transition (accountProgram config isolation) init ok Leased.stop s s') :
    s.data = s'.data ∨ Change config isolation s.since s.data s'.data :=
  (Discipline.transition (I := fun _ => True) (fun _ _ => trivial) (fun _ _ _ _ _ => trivial)
    (accountProgram_sound config isolation) h).2

end Commits

section SuperAdmins

/-- Some account is an active super admin. -/
def Administered (s : World) : Prop := ∃ u, ActiveSuper s.data u

theorem administered_of_reachable (h : Pool.Reachable (accountProgram config isolation) Administered
    ok Leased.stop s ts) : Administered s :=
  (accountDiscipline.invariant (I := fun d => ∃ u, ActiveSuper d u) (fun _ hs => hs)
    (fun _ _ _ hd hchange => hchange.supers hd) (accountProgram_sound config isolation) h).1

/-- A provider that makes everybody an administrator. -/
def corp : SsoProviderSettings where
  id := "corp"
  display_name := "Corp"
  issuer := "https://id.corp.org"
  client_id := "portal"
  scopes := []
  enabled := true
  jit_provisioning := true
  link_existing_accounts := true
  require_verified_email := true
  allowed_email_domains := []
  disable_local_password_for_linked := false
  sync_roles := true
  default_role := some .admin
  role_mappings := []
  org_mappings := []

def portal : Config where
  providers := [corp]
  breakGlassLocalLogin := false
  casing := ⟨id, id⟩
  bootstrapToken := none
  verifyPassword _ _ := true
  issuerProblem _ := none
  normalizeEmailDomain domain := some domain

def member (email : String) (role : Role) : UserRecord :=
  ⟨email, "", 0, role, none, .active, true⟩

/-- Two super admins, and a provider with an identity at `corp`. -/
def portalTables : Tables where
  users id := [member "root@x.org" .super_admin, member "ann@x.org" .super_admin,
    member "bob@x.org" .provider][id]?
  userIds := [0, 1, 2]
  identities := [⟨0, 2, "corp", "https://id.corp.org", "bob", .explicit⟩]
  sessions := []
  passwordLocks _ := false
  emailProofs _ := none
  resetLinks := []
  organizations := []
  registration := ⟨true, false, [.client, .provider]⟩
  ssoRows _ := ⟨.local_and_sso, [], false, []⟩
  saves := 0
  clientSecrets _ := none
  founder := some 0
  roleChanges := []
  clock := 0
  disabledAt _ := 0
  resetAt _ := 0

def portalWorld : World := ⟨portalTables, fun _ => none, 0, fun _ => 0, fun _ => portalTables, none⟩

def root : Actor := ⟨0, .super_admin⟩

/-- So many actions of a slot, all of which succeed. -/
def steps (slot n : ℕ) : List (Pool.Event AccountOp Chance) :=
  List.replicate n (.step slot ⟨.ok, 7⟩)

/-- A run in which one of two super admins is demoted. -/
theorem administered_of_reachable_demotion : ∃ s ts,
    Pool.Reachable (accountProgram portal .serialized) Administered (fun _ _ => True) Leased.stop
      s ts ∧ s.data.users 1 = some (member "ann@x.org" .admin) ∧ Administered s := by
  have hinit : Administered portalWorld := ⟨0, member "root@x.org" .super_admin, rfl, rfl⟩
  obtain ⟨s, ts, hs, hann⟩ := Pool.exists_reachable_of_exec (accountProgram portal .serialized)
    Administered (fun _ _ => True) Leased.stop
    (.start 0 (.updateUser root 1 { role := some .admin }) :: steps 0 9)
    (fun s => s.data.users 1 == some (member "ann@x.org" .admin)) (fun _ _ => trivial) hinit
    (by decide +kernel)
  exact ⟨s, ts, hs, beq_iff_eq.mp hann, administered_of_reachable hs⟩

end SuperAdmins

section Administrators

/-- What a commit may do to administrators, and to those it makes. -/
structure Trusted (config : Config) (isolation : Isolation) (s s' : World) : Prop where
  links : ∀ i ∈ s'.data.identities, i ∉ s.data.identities → i.origin = .automatic → ∀ user,
    s.data.users i.user_id = some user ∨ s'.data.users i.user_id = some user →
      roleAtLeast user.role .admin = false
  promotions : ∀ u user user', s.data.users u = some user → s'.data.users u = some user' →
    Raises user.role user'.role → roleAtLeast user'.role .admin = true →
      ∃ source, s'.data.roleChanges = ⟨u, user.role, user'.role, source⟩ :: s.data.roleChanges ∧
        Vetted config isolation s.since s.data s'.data u source.promoting
  claims : ∀ u user user', s.data.users u = some user → s'.data.users u = some user' →
    user.role ≠ user'.role →
      ∃ source, s'.data.roleChanges = ⟨u, user.role, user'.role, source⟩ :: s.data.roleChanges ∧
        ∀ p, source = .claims p → user.role ≠ .super_admin ∧ user'.role ≠ .super_admin
  provisioned : ∀ i ∈ s'.data.identities, i ∉ s.data.identities → i.origin = .provisioned →
    ∀ user, s'.data.users i.user_id = some user → user.role ≠ .super_admin
  sessions : ∀ u user user', s.data.users u = some user → s'.data.users u = some user' →
    Raises user.role user'.role → ∀ x ∈ s'.data.sessions, x.user_id = u →
      x.committed = s'.data.clock ∧ ∀ y ∈ s'.data.sessions, y.user_id = u → y = x

theorem Audited.change_eq {since : AccountKey → Option Tables} {d d' : Tables} {u : ℕ}
    {role role' : Role} {change : RoleChange}
    (h : Audited config isolation since d d' u role role' change) :
    d'.roleChanges = ⟨u, role, role', change.source⟩ :: d.roleChanges := by
  obtain ⟨rfl, rfl, rfl⟩ := h.about
  exact h.logged

theorem trusted_of_change (h : Change config isolation s.since s.data s'.data) :
    Trusted config isolation s s' where
  links := h.links
  promotions u user user' huser huser' hraises hadmin := by
    have hne : user.role ≠ user'.role := by
      intro heq
      rw [Raises, heq, roleAtLeast_self] at hraises
      cases hraises
    obtain ⟨change, haudited⟩ := h.roles u user user' huser huser' hne
    exact ⟨change.source, haudited.change_eq, haudited.vetted hraises hadmin⟩
  claims u user user' huser huser' hne := by
    obtain ⟨change, haudited⟩ := h.roles u user user' huser huser' hne
    exact ⟨change.source, haudited.change_eq, haudited.claims⟩
  provisioned := h.provisioned
  sessions := h.fresh

/-- Every action of every run that changes the tables is a trusted commit. -/
theorem trusted_of_transition {init : World → Prop}
    (h : Pool.Transition (accountProgram config isolation) init ok Leased.stop s s') :
    s.data = s'.data ∨ Trusted config isolation s s' :=
  (change_of_transition h).imp_right trusted_of_change

/-- A promotion by hand of an account with an identity. -/
theorem trusted_of_transition_promotion : ∃ s s',
    Pool.Transition (accountProgram portal .serialized) (fun s => s = portalWorld)
      (fun _ _ => True) Leased.stop s s' ∧
    (s.data.users 2 = some (member "bob@x.org" .provider) ∧
      s'.data.users 2 = some (member "bob@x.org" .admin)) ∧
    (s.data = s'.data ∨ Trusted portal .serialized s s') := by
  obtain ⟨s, s', h, hbob⟩ := Pool.exists_transition (accountProgram portal .serialized)
    (fun s => s = portalWorld) (fun _ _ => True) Leased.stop
    (.start 0 (.updateUser root 2 { role := some .admin }) :: steps 0 6) 0 {}
    (fun s s' => s.data.users 2 == some (member "bob@x.org" .provider) &&
      s'.data.users 2 == some (member "bob@x.org" .admin))
    (fun _ _ => trivial) rfl (by decide +kernel)
  rw [Bool.and_eq_true, beq_iff_eq, beq_iff_eq] at hbob
  exact ⟨s, s', h, hbob, trusted_of_transition h⟩

end Administrators

section Sessions

/-- A stored session is of an active account, and newer than its latest disable
and its latest reset. -/
def InForce (d : Tables) (x : SessionRecord) : Prop :=
  (∃ user, d.users x.user_id = some user ∧ user.status = .active) ∧
    d.disabledAt x.user_id < x.committed ∧ d.resetAt x.user_id < x.committed

/-- All sessions are in force, and no history is ahead of the clock. -/
structure Orderly (d : Tables) : Prop where
  sessions : ∀ x ∈ d.sessions, InForce d x
  disabled : ∀ u, d.disabledAt u ≤ d.clock
  reset : ∀ u, d.resetAt u ≤ d.clock

/-- A session that a registration opens finds its account active. -/
def Timely (s s' : World) : Prop :=
  ∀ x ∈ s'.data.sessions, x ∉ s.data.sessions → x.registration = true →
    ((s.data.users x.user_id).any fun user => user.status = .active) = true

instance : DecidableRel Timely := fun s s' => inferInstanceAs (Decidable (∀ x ∈ s'.data.sessions,
  x ∉ s.data.sessions → x.registration = true →
    ((s.data.users x.user_id).any fun user => user.status = .active) = true))

theorem orderly_of_change {d d' : Tables} {since : AccountKey → Option Tables} (h : Orderly d)
    (hchange : Change config isolation since d d')
    (htimely : ∀ x ∈ d'.sessions, x ∉ d.sessions → x.registration = true →
      ((d.users x.user_id).any fun user => user.status = .active) = true) : Orderly d' where
  sessions x hx := by
    have hclock := hchange.clock
    -- an event of this commit would have ended the session
    have hdisabled : d'.disabledAt x.user_id = d.disabledAt x.user_id :=
      (hchange.disabled x.user_id).resolve_right fun hnew => hnew.2 x hx rfl
    have hreset : d'.resetAt x.user_id = d.resetAt x.user_id :=
      (hchange.reset x.user_id).resolve_right fun hnew => hnew.2 x hx rfl
    by_cases hold : x ∈ d.sessions
    · obtain ⟨⟨user, huser, hactive⟩, hafter, hafter'⟩ := h.sessions x hold
      obtain ⟨user', huser', hstatus, -⟩ := hchange.kept x hx hold user huser
      exact ⟨⟨user', huser', hstatus hactive⟩, hdisabled ▸ hafter, hreset ▸ hafter'⟩
    · obtain ⟨hcommitted, hopened⟩ := hchange.opened x hx hold
      have hle := h.disabled x.user_id
      have hle' := h.reset x.user_id
      refine ⟨?_, by omega, by omega⟩
      rcases hopened with ⟨hreg, husers⟩ | ⟨-, user, huser, hactive, -⟩
      · obtain ⟨user, huser, hactive⟩ := (Option.any_eq_true _ _).mp (htimely x hx hold hreg)
        exact ⟨user, husers ▸ huser, of_decide_eq_true hactive⟩
      · exact ⟨user, huser, hactive⟩
  disabled u := by
    have hle := h.disabled u
    have hclock := hchange.clock
    rcases hchange.disabled u with hsame | hnew
    · omega
    · omega
  reset u := by
    have hle := h.reset u
    have hclock := hchange.clock
    rcases hchange.reset u with hsame | hnew
    · omega
    · omega

/-- A commit keeps the sessions in force exactly if it is timely. -/
theorem orderly_iff_timely (h : Orderly s.data)
    (hchange : Change config isolation s.since s.data s'.data) :
    Orderly s'.data ↔ Timely s s' := by
  refine ⟨fun h' x hx hnew hreg => ?_, orderly_of_change h hchange⟩
  obtain ⟨user, huser, hactive⟩ := (h'.sessions x hx).1
  rcases (hchange.opened x hx hnew).2 with ⟨-, husers⟩ | ⟨hreg', -⟩
  · exact (Option.any_eq_true _ _).mpr ⟨user, husers ▸ huser, decide_eq_true hactive⟩
  · rw [hreg] at hreg'
    cases hreg'

/-- The requests, in the runs where registrations are timely. -/
def timelyProgram (config : Config) (isolation : Isolation) (slot : ℕ) (op : AccountOp) :
    Program World Chance Unit :=
  (accountProgram config isolation slot op).restrict Timely

theorem timelyProgram_sound (slot : ℕ) (op : AccountOp) (s : World) :
    wp (accountDiscipline.Kept slot) (accountDiscipline.Guar (fun since d d' =>
      Change config isolation since d d' ∧ ∀ x ∈ d'.sessions, x ∉ d.sessions →
        x.registration = true → ((d.users x.user_id).any fun user => user.status = .active) = true)
      slot) (timelyProgram config isolation slot op) (fun _ _ => True) s := by
  refine wp_guarantee (wp_restrict Timely (accountProgram_sound config isolation slot op s)) ?_
    fun _ _ h => h
  rintro s s' ⟨hguar, htimely⟩
  exact ⟨hguar.kept, hguar.change.imp_right fun hchange => ⟨hchange, htimely⟩⟩

/-- Where registrations are timely, no session outlives a disable or a reset. -/
theorem orderly_of_reachable (h : Pool.Reachable (timelyProgram config isolation)
    (fun s => Orderly s.data) ok Leased.stop s ts) : Orderly s.data :=
  (accountDiscipline.invariant (I := Orderly) (fun _ hs => hs)
    (fun _ _ _ hd hchange => orderly_of_change hd hchange.1 hchange.2) timelyProgram_sound h).1

def signUp : AccountOp := .register ⟨"eve@x.org", "correct horse", "Eve", .client, none⟩

theorem orderly_portalWorld : Orderly portalWorld.data :=
  ⟨nofun, fun _ => le_rfl, fun _ => le_rfl⟩

/-- A registration that is not overtaken. -/
theorem orderly_of_reachable_signUp : ∃ s ts,
    Pool.Reachable (timelyProgram portal .serialized) (fun s => Orderly s.data) (fun _ _ => True)
      Leased.stop s ts ∧ s.data.sessions = [⟨7, 7, 2, some 7, true⟩] ∧ Orderly s.data := by
  obtain ⟨s, ts, hs, hopened⟩ := Pool.exists_reachable_of_exec (timelyProgram portal .serialized)
    (fun s => Orderly s.data) (fun _ _ => True) Leased.stop (.start 0 signUp :: steps 0 15)
    (fun s => s.data.sessions == [⟨7, 7, 2, some 7, true⟩]) (fun _ _ => trivial)
    orderly_portalWorld (by decide +kernel)
  exact ⟨s, ts, hs, beq_iff_eq.mp hopened, orderly_of_reachable hs⟩

/-- An administrator disables the account between a registration's transaction
and the session it opens. -/
theorem signUp_outlives_disable : ∃ s ts,
    Pool.Reachable (accountProgram portal .serialized) (fun s => Orderly s.data) (fun _ _ => True)
      Leased.stop s ts ∧ ∃ x ∈ s.data.sessions, ∃ user, s.data.users x.user_id = some user ∧
        user.status = .disabled := by
  obtain ⟨s, ts, hs, hstays⟩ := Pool.exists_reachable_of_exec (accountProgram portal .serialized)
    (fun s => Orderly s.data) (fun _ _ => True) Leased.stop
    (.start 0 signUp :: steps 0 12 ++ .start 1 (.disableUser root 7 "abuse") :: steps 1 6 ++
      steps 0 3)
    (fun s => s.data.sessions.any fun x =>
      (s.data.users x.user_id).any fun user => user.status = .disabled)
    (fun _ _ => trivial) orderly_portalWorld (by decide +kernel)
  obtain ⟨x, hx, hdisabled⟩ := List.any_eq_true.mp hstays
  obtain ⟨user, huser, hstatus⟩ := (Option.any_eq_true _ _).mp hdisabled
  exact ⟨s, ts, hs, x, hx, user, huser, of_decide_eq_true hstatus⟩

end Sessions

end FerrumNexus.Accounts
