import FerrumNexus.Accounts.Changes

/-!
# The commits, one by one

Each transaction of the account services is followed from its first read to its
commit. What it read is moved on by whatever its keys allow, and the write at
its end is one of the kinds of commit. Most statements of a write trim: they end
sessions and links, and leave the accounts, the identities and the settings
alone.
-/
namespace FerrumNexus.Accounts

open Saga
open Platform (Role UserStatus roleRank roleAtLeast)

section Statements

variable {u : ℕ} {d d' d'' : Tables}

def NoSessions (d : Tables) (u : ℕ) : Prop := ∀ x ∈ d.sessions, x.user_id ≠ u

/-- What a statement that trims leaves. -/
structure Trims (d d' : Tables) : Prop where
  users : d'.users = d.users
  identities : d'.identities = d.identities
  saves : d'.saves = d.saves
  ssoRows : d'.ssoRows = d.ssoRows
  clock : d'.clock = d.clock
  roleChanges : d'.roleChanges = d.roleChanges
  sessions : ∀ x ∈ d'.sessions, x ∈ d.sessions
  disabled : ∀ w, d'.disabledAt w = d.disabledAt w ∨ (d'.disabledAt w = d'.clock ∧ NoSessions d' w)
  reset : ∀ w, d'.resetAt w = d.resetAt w ∨ (d'.resetAt w = d'.clock ∧ NoSessions d' w)

theorem Trims.refl (d : Tables) : Trims d d :=
  ⟨rfl, rfl, rfl, rfl, rfl, rfl, fun _ h => h, fun _ => .inl rfl, fun _ => .inl rfl⟩

theorem NoSessions.trims (h : NoSessions d u) (ht : Trims d d') : NoSessions d' u :=
  fun x hx => h x (ht.sessions x hx)

theorem Trims.trans (h : Trims d d') (h' : Trims d' d'') : Trims d d'' where
  users := h'.users.trans h.users
  identities := h'.identities.trans h.identities
  saves := h'.saves.trans h.saves
  ssoRows := h'.ssoRows.trans h.ssoRows
  clock := h'.clock.trans h.clock
  roleChanges := h'.roleChanges.trans h.roleChanges
  sessions x hx := h.sessions x (h'.sessions x hx)
  disabled w := by
    rcases h'.disabled w with hsame | hnew
    · rcases h.disabled w with hsame₁ | ⟨hclock, hnone⟩
      · exact .inl (hsame.trans hsame₁)
      · exact .inr ⟨(hsame.trans hclock).trans h'.clock.symm, hnone.trims h'⟩
    · exact .inr hnew
  reset w := by
    rcases h'.reset w with hsame | hnew
    · rcases h.reset w with hsame₁ | ⟨hclock, hnone⟩
      · exact .inl (hsame.trans hsame₁)
      · exact .inr ⟨(hsame.trans hclock).trans h'.clock.symm, hnone.trims h'⟩
    · exact .inr hnew

/-- A statement that trims without a disable or a reset. -/
structure Keeps (d d' : Tables) : Prop where
  users : d'.users = d.users
  identities : d'.identities = d.identities
  saves : d'.saves = d.saves
  ssoRows : d'.ssoRows = d.ssoRows
  clock : d'.clock = d.clock
  roleChanges : d'.roleChanges = d.roleChanges
  sessions : ∀ x ∈ d'.sessions, x ∈ d.sessions
  disabled : d'.disabledAt = d.disabledAt
  reset : d'.resetAt = d.resetAt

theorem Keeps.refl (d : Tables) : Keeps d d :=
  ⟨rfl, rfl, rfl, rfl, rfl, rfl, fun _ h => h, rfl, rfl⟩

theorem Keeps.trims (h : Keeps d d') : Trims d d' where
  users := h.users
  identities := h.identities
  saves := h.saves
  ssoRows := h.ssoRows
  clock := h.clock
  roleChanges := h.roleChanges
  sessions := h.sessions
  disabled w := .inl (congrFun h.disabled w)
  reset w := .inl (congrFun h.reset w)

theorem noSessions_filter (sessions : List SessionRecord) (u : ℕ) :
    ∀ x ∈ sessions.filter fun session => session.user_id != u, x.user_id ≠ u :=
  fun _ hx => bne_iff_ne.mp (List.mem_filter.mp hx).2

theorem moves_deleteSessions (u : ℕ) : Moves Keeps (deleteSessions u) := by
  intro d _ d' h
  cases h
  exact ⟨rfl, rfl, rfl, rfl, rfl, rfl, fun x hx => (List.mem_filter.mp hx).1, rfl, rfl⟩

theorem moves_deleteResetLinks (u : ℕ) : Moves Keeps (deleteResetLinks u) := by
  intro d _ d' h
  cases h
  exact ⟨rfl, rfl, rfl, rfl, rfl, rfl, fun _ hx => hx, rfl, rfl⟩

theorem moves_upsertProof (u : ℕ) (proof : EmailProofRecord) :
    Moves Keeps (upsertProof u proof) := by
  intro d _ d' h
  cases h
  exact ⟨rfl, rfl, rfl, rfl, rfl, rfl, fun _ hx => hx, rfl, rfl⟩

theorem moves_whenever {T : Tables → Tables → Prop} (hrefl : ∀ d, T d d) {w : AccountWrite Unit}
    (c : Bool) (h : Moves T w) : Moves T (whenever c w) := by
  cases c with
  | false => exact moves_pure hrefl ()
  | true => exact h

theorem noSessions_deleteSessions {a : Unit} (h : (deleteSessions u).run d = .ok (a, d')) :
    NoSessions d' u := by
  cases h
  exact noSessions_filter d.sessions u

/-- A disable ends every session of the account, and is its latest. -/
theorem disableEffects_spec {a : Unit} (h : (disableEffects u).run d = .ok (a, d')) :
    Trims d d' ∧ NoSessions d' u := by
  cases h
  have hnone := noSessions_filter d.sessions u
  refine ⟨⟨rfl, rfl, rfl, rfl, rfl, rfl, fun x hx => (List.mem_filter.mp hx).1, fun w => ?_,
    fun _ => .inl rfl⟩, hnone⟩
  by_cases hw : w = u
  · subst hw
    exact .inr ⟨Function.update_self _ _ _, hnone⟩
  · exact .inl (Function.update_of_ne hw _ _)

variable {expected : Expected}

theorem updateIfMatches_cases {id : ℕ} {update : UserUpdate} {r : Option UserRecord}
    (h : (updateIfMatches id expected update).run d = .ok (r, d')) :
    (r = none ∧ d = d') ∨ ∃ user, d.users id = some user ∧ expected.matchesRow user = true ∧
      r = some (update.apply user) ∧ d' = putUser id (update.apply user) d := by
  unfold updateIfMatches at h
  obtain ⟨d₁, _, hget, h⟩ := run_bind_ok.mp h
  cases hget
  split at h
  · cases h
    exact .inl ⟨rfl, rfl⟩
  · rename_i user huser
    split at h
    · rename_i hmatch
      obtain ⟨_, d₂, hset, h⟩ := run_bind_ok.mp h
      cases hset
      cases h
      exact .inr ⟨user, huser, hmatch, rfl, rfl⟩
    · cases h
      exact .inl ⟨rfl, rfl⟩

theorem matchesRow_role {user : UserRecord} {role : Role} (h : expected.matchesRow user = true)
    (hrole : expected.role = some role) :
    user.role = role := by
  simp only [Expected.matchesRow, hrole, Bool.and_eq_true, Option.all_some, beq_iff_eq] at h
  exact h.1.1.symm

theorem matchesRow_status {user : UserRecord} {status : UserStatus}
    (h : expected.matchesRow user = true) (hstatus : expected.status = some status) :
    user.status = status := by
  simp only [Expected.matchesRow, hstatus, Bool.and_eq_true, Option.all_some, beq_iff_eq] at h
  exact h.1.2.symm

theorem matchesRow_hash {user : UserRecord} {hash : ℕ} (h : expected.matchesRow user = true)
    (hhash : expected.password_hash = some hash) :
    user.password_hash = hash := by
  simp only [Expected.matchesRow, hhash, Bool.and_eq_true, Option.all_some, beq_iff_eq] at h
  exact h.2.symm

end Statements

section Queries

variable {config : Config} {isolation : Isolation} {keys : List AccountKey}
  {seen : AccountKey → Tables} {F : accountDiscipline.Fact} {α β : Type} {d d' d'' : Tables}

/-- How the tables move between the reads of a transaction under `keys`. -/
abbrev Evolves (isolation : Isolation) (keys : List AccountKey) : Tables → Tables → Prop :=
  accountDiscipline.Evolves isolation keys

/-- A query under `keys` answers within `Q`, or throws. -/
abbrev Finds (isolation : Isolation) (keys : List AccountKey) (p : AccountQuery α)
    (Q : α → Tables → Prop) (d : Tables) : Prop :=
  wpe (Evolves isolation keys) Eq p Q (fun _ _ => True) d

theorem Evolves.grows (h : Evolves isolation keys d d') : Grows d d' := Discipline.Evolves.grows h

theorem Evolves.supers (h : Evolves isolation keys d d') (hkey : .superAdmins ∈ keys) {u : ℕ}
    (hu : ActiveSuper d u) : ActiveSuper d' u :=
  Discipline.Evolves.protects h _ hkey u hu

theorem Evolves.settled (h : Evolves isolation keys d d') {u : ℕ} (hkey : .lifecycle u ∈ keys) :
    Settled u d d' :=
  Discipline.Evolves.protects h _ hkey

variable {Q : α → Tables → Prop}

theorem Finds.bind {p : AccountQuery β} {g : β → AccountQuery α} {M : β → Tables → Prop}
    (hp : Finds isolation keys p M d) (hg : ∀ b d', M b d' → Finds isolation keys (g b) Q d') :
    Finds isolation keys (p >>= g) Q d :=
  wpe_call hp hg fun _ _ _ => trivial

theorem finds_pure {a : α} (h : Q a d) :
    Finds isolation keys (pure a) Q d := h

theorem finds_throw {e : AccountError} :
    Finds isolation keys (throw e) Q d := trivial

theorem finds_reads (f : Tables → α) : Finds isolation keys (reads f) (fun a d' =>
    Evolves isolation keys d d' ∧ a = f d') d :=
  wpe_look fun _ hd' => ⟨hd', rfl⟩

theorem finds_ensure {c : Bool} {e : AccountError} {Q : Unit → Tables → Prop}
    (h : c = true → Q () d) : Finds isolation keys (ensure c e) Q d := by
  cases c with
  | false => exact trivial
  | true => exact h rfl

theorem finds_skip {p : AccountQuery α} (h : Reads p) :
    Finds isolation keys p (fun _ d' => Evolves isolation keys d d') d :=
  wpe_skip (Discipline.Evolves.refl isolation keys d) (fun _ _ _ => Discipline.Evolves.trans) h

theorem reads_reads (f : Tables → α) : Reads (reads f) :=
  reads_look AccountError.internal f

theorem reads_ensure (c : Bool) (e : AccountError) : Reads (ensure c e) := by
  cases c with
  | false => exact reads_throw e
  | true => exact reads_pure ()

theorem reads_check (r : Except AccountError α) : Reads (check r) := by
  cases r with
  | error e => exact reads_throw e
  | ok a => exact reads_pure a

/-- What is left of a transaction: from where its reads end, its write. -/
theorem body_of_finds {body : AccountQuery (AccountWrite α)}
    (h : ∀ (seen : AccountKey → Tables) d, F.holds d → (∀ key ∈ keys, Grows (seen key) d) →
      Finds isolation keys body (fun write d₁ => ∀ d₂ a d', Evolves isolation keys d₁ d₂ →
        write.run d₂.tick = .ok (a, d') → Done config isolation keys seen d₂ d') d) :
    accountDiscipline.Body F (Change config isolation) isolation keys (numbered <$> body) := by
  intro seen d hF hgrows
  rw [wpe_map]
  refine wpe_mono (h seen d hF hgrows) ?_ fun _ _ _ => trivial
  intro write d₁ hwrite d₂ hd₂ a d' hrun
  exact hwrite d₂ a d' hd₂ hrun

/-- A commit that only ends sessions and links. -/
theorem done_of_keeps (h : Keeps d.tick d') : Done config isolation keys seen d d' :=
  Untouched.done ⟨h.users, h.saves.ge, fun v _ => congrFun h.ssoRows v,
    fun _ hi => h.identities ▸ hi, h.clock, h.disabled, h.reset, fun x hx => .inl (h.sessions x hx)⟩

/-- A transaction that finds nothing to do. -/
theorem done_idle {a b : α} (h : (pure a : AccountWrite α).run d.tick = .ok (b, d')) :
    Done config isolation keys seen d d' := by
  cases h
  exact done_of_keeps (Keeps.refl _)

/-- Where an account guards the last super admin, another one was counted. -/
theorem finds_assertOtherSuperAdmin (c : Bool) (id : ℕ) :
    Finds isolation keys (assertOtherSuperAdmin c id) (fun _ d' => Evolves isolation keys d d' ∧
      (c = true → ∃ v, v ≠ id ∧ ActiveSuper d' v)) d := by
  cases c with
  | false => exact ⟨Discipline.Evolves.refl _ _ d, nofun⟩
  | true =>
    refine Finds.bind (finds_reads _) ?_
    rintro others d' ⟨hd', hcount⟩
    refine finds_ensure fun hothers => ⟨hd', fun _ => ?_⟩
    have hpos : 0 < others := Nat.pos_of_ne_zero (bne_iff_ne.mp hothers)
    rw [hcount, countActiveSuperAdmins, List.length_pos_iff_exists_mem] at hpos
    obtain ⟨v, hv⟩ := hpos
    obtain ⟨hne, hactive⟩ := Bool.and_eq_true_iff.mp (List.mem_filter.mp hv).2
    obtain ⟨user, huser, hsuper⟩ := (Option.any_eq_true _ _).mp hactive
    exact ⟨v, fun heq => bne_iff_ne.mp hne (congrArg some heq), user, huser, hsuper⟩

/-- Where no provider is of lower trust, every identity is at a trusted one. -/
theorem finds_lowerTrust (u : ℕ) (stored : StoredSsoSettings) (promoting : Option String) :
    Finds isolation keys (lowerTrust config u stored promoting) (fun ids d' =>
      Evolves isolation keys d d' ∧ (ids.isEmpty = true → ∀ i ∈ d'.identities, i.user_id = u →
        some i.provider_id ≠ promoting → TrustedAt config stored i.provider_id i.issuer)) d := by
  refine Finds.bind (finds_reads _) ?_
  rintro identities d' ⟨hd', hids⟩
  refine finds_pure ⟨hd', fun hempty i hi hu hp => ?_⟩
  have hnil := List.map_eq_nil_iff.mp (sortedIds_isEmpty hempty)
  have hmem : i ∈ identities := by
    rw [hids]
    exact List.mem_filter.mpr ⟨hi, beq_iff_eq.mpr hu⟩
  have hnot := List.filter_eq_nil_iff.mp hnil i hmem
  simp only [Bool.and_eq_true, bne_iff_ne, ne_eq, not_and, not_not] at hnot
  exact trustedAt_of_trustedIssuer (hnot hp)

/-- Identities that were found trusted while the account's key is held are
vetted at the commit. -/
theorem vetted_of_evolves {u : ℕ} {promoting : Option String} {d₁ d₂ d₃ : Tables}
    {since : AccountKey → Option Tables} (hkey : .lifecycle u ∈ keys)
    (hsince : ∀ key ∈ keys, since key = some (seen key)) (htaken : Grows (seen (.lifecycle u)) d₁)
    (h₁₂ : Evolves isolation keys d₁ d₂) (h₂₃ : Evolves isolation keys d₂ d₃)
    (hsome : (d₂.users u).isSome) (htrusted : ∀ i ∈ d₂.identities, i.user_id = u →
      some i.provider_id ≠ promoting → TrustedAt config d₁.sso i.provider_id i.issuer)
    (hids : ∀ i ∈ d'.identities, i.user_id = u → some i.provider_id ≠ promoting →
      i ∈ d₃.identities) : Vetted config isolation since d₃ d' u promoting := by
  have h₁₃ := h₁₂.trans h₂₃
  refine ⟨d₁.saves, h₁₃.grows.saves, ⟨_, hsince _ hkey, htaken.saves⟩, fun hs => ?_, ?_⟩
  · exact congrArg Tables.saves (h₁₃.serialized hs)
  · intro i hi hu hp
    obtain ⟨i₂, hi₂, hu₂, hprovider, hissuer⟩ :=
      (h₂₃.settled hkey).identities hsome i (hids i hi hu hp) hu
    have htrust := htrusted i₂ hi₂ hu₂ (hprovider ▸ hp)
    rwa [hprovider, hissuer, Tables.sso, ← h₁₃.grows.ssoRows _ le_rfl] at htrust

end Queries

end FerrumNexus.Accounts
