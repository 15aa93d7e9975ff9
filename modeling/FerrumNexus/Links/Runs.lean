import FerrumNexus.Accounts.Runs
import FerrumNexus.Links.Soundness

/-!
# Runs with recovery links

What holds of the links in every state of a run, and what every action of a run
may do to them. Every commit has a number, so that a link is newer than another,
than a reset or than a disable if its number is greater. The window of a mint is
claimed in the same commit, by a request that found the previous one over, and a
clock that other requests read later does not matter.
-/
namespace FerrumNexus.Links

open Saga Accounts

variable {deps : Deps} {isolation : Isolation} {d d' : LinkTables}

/-- Two mints, or two links, of one account and purpose. -/
def Mint.sameAs (m m' : Mint) : Prop := m.user_id = m'.user_id ∧ m.purpose = m'.purpose

def VerificationTokenRecord.sameAs (row row' : VerificationTokenRecord) : Prop :=
  row.user_id = row'.user_id ∧ row.purpose = row'.purpose

/-- The claim of a window is no older than any mint. -/
def Claimed (d : LinkTables) (m : Mint) : Prop :=
  ∃ last, d.issueClaims m.user_id m.purpose = some last ∧ m.issuedAt ≤ last

/-- The newer of two mints of one purpose found the older one's window over. -/
def Apart (newer older : Mint) : Prop :=
  newer.sameAs older → older.issuedAt + throttle newer.purpose ≤ newer.issuedAt

/-- The link is newer than what ends reset links. -/
structure Standing (a : Tables) (row : VerificationTokenRecord) : Prop where
  disabledAt : a.disabledAt row.user_id < row.number
  resetAt : a.resetAt row.user_id < row.number

/-- What holds in every state. -/
structure Consistent (d : LinkTables) : Prop where
  ids : (d.rows.map (·.id)).Nodup
  hashes : (d.rows.map (·.token_hash)).Nodup
  numbers : ∀ row ∈ d.rows, row.number ≤ d.accounts.clock
  newest : ∀ row ∈ d.tokens, ∀ other ∈ d.rows, other.sameAs row → other.id ≠ row.id →
    other.number < row.number
  redeemed : d.redemptions.Nodup
  burned : ∀ id ∈ d.redemptions, ∃ row ∈ d.rows, row.id = id ∧ row.used_at ≠ none
  standing : ∀ row ∈ d.tokens, row.purpose = .password_reset → Standing d.accounts row
  disabledAt : ∀ u, d.accounts.disabledAt u ≤ d.accounts.clock
  resetAt : ∀ u, d.accounts.resetAt u ≤ d.accounts.clock
  claimed : ∀ m ∈ d.mints, Claimed d m
  apart : d.mints.Pairwise Apart

theorem Consistent.eq_of_id (h : Consistent d) {row row' : VerificationTokenRecord}
    (hrow : row ∈ d.rows) (hrow' : row' ∈ d.rows) (hid : row.id = row'.id) : row = row' :=
  List.inj_on_of_nodup_map h.ids hrow hrow' hid

theorem mem_tokens {row : VerificationTokenRecord} :
    row ∈ d.tokens ↔ row ∈ d.rows ∧ row.deleted = false := by
  simp [LinkTables.tokens]

/-- What a commit may do to a row. -/
structure Ages (f : VerificationTokenRecord → VerificationTokenRecord) : Prop where
  stamp : ∀ row, (f row).stamp = row.stamp
  present : ∀ row, (f row).deleted = false → row.deleted = false
  used : ∀ row, row.used_at ≠ none → (f row).used_at ≠ none

section Rows

variable {f g : VerificationTokenRecord → VerificationTokenRecord} {row : VerificationTokenRecord}

theorem Ages.id (hf : Ages f) (row : VerificationTokenRecord) : (f row).id = row.id :=
  congrArg Prod.fst (hf.stamp row)

theorem Ages.user_id (hf : Ages f) (row : VerificationTokenRecord) :
    (f row).user_id = row.user_id :=
  congrArg (·.2.1) (hf.stamp row)

theorem Ages.token_hash (hf : Ages f) (row : VerificationTokenRecord) :
    (f row).token_hash = row.token_hash :=
  congrArg (·.2.2.1) (hf.stamp row)

theorem Ages.purpose (hf : Ages f) (row : VerificationTokenRecord) :
    (f row).purpose = row.purpose :=
  congrArg (·.2.2.2.1) (hf.stamp row)

theorem Ages.number (hf : Ages f) (row : VerificationTokenRecord) : (f row).number = row.number :=
  congrArg (·.2.2.2.2) (hf.stamp row)

theorem ages_id : Ages id := ⟨fun _ => rfl, fun _ h => h, fun _ h => h⟩

theorem ages_strike (u : ℕ) (purpose : Purpose) : Ages (strike u purpose) where
  stamp := stamp_strike u purpose
  present row h := by
    unfold strike at h
    split at h
    · cases h
    · exact h
  used row h := by
    unfold strike
    split
    · exact h
    · exact h

theorem ages_burn (id usedAt : ℕ) : Ages (burn id usedAt) where
  stamp := stamp_burn id usedAt
  present row h := by
    unfold burn at h
    split at h
    · exact h
    · exact h
  used row h := by
    unfold burn
    split
    · exact Option.some_ne_none usedAt
    · exact h

theorem Ages.comp (hg : Ages g) (hf : Ages f) : Ages (g ∘ f) where
  stamp row := (hg.stamp (f row)).trans (hf.stamp row)
  present row h := hf.present row (hg.present (f row) h)
  used row h := hg.used (f row) (hf.used row h)

/-- A row that was struck is of another account or purpose. -/
theorem not_belongs_of_present {u : ℕ} {purpose : Purpose}
    (h : (strike u purpose row).deleted = false) : ¬ (row.user_id = u ∧ row.purpose = purpose) := by
  rintro ⟨rfl, rfl⟩
  simp [strike, belongs] at h

theorem Ages.sameAs (hf : Ages f) {row row' : VerificationTokenRecord}
    (h : (f row).sameAs (f row')) : row.sameAs row' := by
  unfold VerificationTokenRecord.sameAs at h
  rwa [hf.user_id, hf.user_id, hf.purpose, hf.purpose] at h

theorem Consistent.ids_map (h : Consistent d) (hf : Ages f) :
    ((d.rows.map f).map (·.id)).Nodup := by
  have hids : (d.rows.map f).map (·.id) = d.rows.map (·.id) := by
    rw [List.map_map]
    exact List.map_congr_left fun row _ => hf.id row
  exact hids ▸ h.ids

theorem Consistent.hashes_map (h : Consistent d) (hf : Ages f) :
    ((d.rows.map f).map (·.token_hash)).Nodup := by
  have hhashes : (d.rows.map f).map (·.token_hash) = d.rows.map (·.token_hash) := by
    rw [List.map_map]
    exact List.map_congr_left fun row _ => hf.token_hash row
  exact hhashes ▸ h.hashes

/-- What is left to show of a commit that adds no link. -/
structure Kept (d d' : LinkTables) (f : VerificationTokenRecord → VerificationTokenRecord) :
    Prop where
  ages : Ages f
  rows : d'.rows = d.rows.map f
  clock : d.accounts.clock ≤ d'.accounts.clock
  redeemed : d'.redemptions.Nodup
  burned : ∀ id ∈ d'.redemptions, id ∈ d.redemptions ∨
    ∃ row ∈ d'.rows, row.id = id ∧ row.used_at ≠ none
  disabledAt : ∀ u, d'.accounts.disabledAt u = d.accounts.disabledAt u ∨
    d'.accounts.disabledAt u = d'.accounts.clock ∧
      ∀ row, (f row).deleted = false → row.purpose = .password_reset → row.user_id ≠ u
  resetAt : ∀ u, d'.accounts.resetAt u = d.accounts.resetAt u ∨
    d'.accounts.resetAt u = d'.accounts.clock ∧
      ∀ row, (f row).deleted = false → row.purpose = .password_reset → row.user_id ≠ u
  unminted : Unminted d d'

/-- Rows that only age keep the tables consistent. -/
theorem Consistent.kept (h : Consistent d) (hk : Kept d d' f) : Consistent d' where
  ids := hk.rows ▸ h.ids_map hk.ages
  hashes := hk.rows ▸ h.hashes_map hk.ages
  numbers row' hrow' := by
    rw [hk.rows] at hrow'
    obtain ⟨row, hrow, rfl⟩ := List.mem_map.mp hrow'
    rw [hk.ages.number]
    exact (h.numbers row hrow).trans hk.clock
  newest row' hrow' other' hother' hsame hne := by
    obtain ⟨hrow', hpresent⟩ := mem_tokens.mp hrow'
    rw [hk.rows] at hrow' hother'
    obtain ⟨row, hrow, rfl⟩ := List.mem_map.mp hrow'
    obtain ⟨other, hother, rfl⟩ := List.mem_map.mp hother'
    rw [hk.ages.id, hk.ages.id] at hne
    rw [hk.ages.number, hk.ages.number]
    have htoken : row ∈ d.tokens := mem_tokens.mpr ⟨hrow, hk.ages.present row hpresent⟩
    exact h.newest row htoken other hother (hk.ages.sameAs hsame) hne
  redeemed := hk.redeemed
  burned id hid := by
    rcases hk.burned id hid with hold | hnew
    · obtain ⟨row, hrow, hrowid, hused⟩ := h.burned id hold
      refine ⟨f row, ?_, (hk.ages.id row).trans hrowid, hk.ages.used row hused⟩
      rw [hk.rows]
      exact List.mem_map_of_mem hrow
    · exact hnew
  standing row' hrow' hpurpose := by
    obtain ⟨hrow', hpresent⟩ := mem_tokens.mp hrow'
    rw [hk.rows] at hrow'
    obtain ⟨row, hrow, rfl⟩ := List.mem_map.mp hrow'
    rw [hk.ages.purpose] at hpurpose
    have hstands := h.standing row (mem_tokens.mpr ⟨hrow, hk.ages.present row hpresent⟩) hpurpose
    constructor
    · rw [hk.ages.user_id, hk.ages.number]
      rcases hk.disabledAt row.user_id with hsame | ⟨-, hgone⟩
      · exact hsame ▸ hstands.disabledAt
      · exact absurd rfl (hgone row hpresent hpurpose)
    · rw [hk.ages.user_id, hk.ages.number]
      rcases hk.resetAt row.user_id with hsame | ⟨-, hgone⟩
      · exact hsame ▸ hstands.resetAt
      · exact absurd rfl (hgone row hpresent hpurpose)
  disabledAt u := by
    rcases hk.disabledAt u with hsame | ⟨hnew, -⟩
    · exact hsame ▸ (h.disabledAt u).trans hk.clock
    · exact hnew.le
  resetAt u := by
    rcases hk.resetAt u with hsame | ⟨hnew, -⟩
    · exact hsame ▸ (h.resetAt u).trans hk.clock
    · exact hnew.le
  claimed m hm := by
    rw [hk.unminted.mints] at hm
    obtain ⟨last, hlast, hle⟩ := h.claimed m hm
    exact ⟨last, hk.unminted.issueClaims ▸ hlast, hle⟩
  apart := hk.unminted.mints ▸ h.apart

end Rows

section Steps

variable {row : VerificationTokenRecord}

theorem clock_of_spares {who : Option ℕ} {a a' : Tables} (h : Spares who a.tick a') :
    a'.clock = a.clock + 1 := h.clock

/-- A commit that disables nobody has nobody to end the links of. -/
theorem disabledAt_of_spares {a a' : Tables} (h : Spares none a.tick a') (u : ℕ) :
    a'.disabledAt u = a.disabledAt u :=
  (h.disabledAt u).resolve_right fun hnew => Option.some_ne_none u hnew.1.symm

theorem kept_of_quiet (h : Consistent d) (hq : Quiet d d') : Kept d d' id where
  ages := ages_id
  rows := by
    rw [hq.rows, List.map_id]
  clock := by
    rw [clock_of_spares hq.accounts]
    exact Nat.le_succ _
  redeemed := hq.redemptions ▸ h.redeemed
  burned id hid := .inl (hq.redemptions ▸ hid)
  disabledAt u := .inl (disabledAt_of_spares hq.accounts u)
  resetAt u := .inl (congrFun hq.accounts.resetAt u)
  unminted := hq.unminted

/-- A link is burned once: it was unused, and those in the list are used. -/
theorem redeemed_of_burned (h : Consistent d) (hb : Burned d d' row) : d'.redemptions.Nodup := by
  rw [hb.redemptions, List.nodup_cons]
  refine ⟨fun hmem => ?_, h.redeemed⟩
  obtain ⟨other, hother, hid, hused⟩ := h.burned row.id hmem
  have heq := h.eq_of_id hother (mem_tokens.mp hb.present).1 hid
  exact hused (heq ▸ hb.unused)

theorem used_at_burn (row : VerificationTokenRecord) (usedAt : ℕ) :
    (burn row.id usedAt row).used_at ≠ none := by
  simp [burn]

/-- A verification burns its link. -/
theorem kept_of_verify {usedAt : ℕ} (h : Consistent d) (hv : Verified d d' row usedAt) :
    Kept d d' (burn row.id usedAt) where
  ages := ages_burn row.id usedAt
  rows := hv.rows
  clock := by
    rw [clock_of_spares hv.accounts]
    exact Nat.le_succ _
  redeemed := redeemed_of_burned h hv.burned
  burned id hid := by
    rw [hv.burned.redemptions] at hid
    rcases List.mem_cons.mp hid with rfl | hold
    · refine .inr ⟨burn row.id usedAt row, ?_, (ages_burn _ _).id row, used_at_burn row usedAt⟩
      rw [hv.rows]
      exact List.mem_map_of_mem (mem_tokens.mp hv.burned.present).1
    · exact .inl hold
  disabledAt u := .inl (disabledAt_of_spares hv.accounts u)
  resetAt u := .inl (congrFun hv.accounts.resetAt u)
  unminted := hv.burned.unminted

/-- A reset burns its link and strikes the other reset links of its user. -/
theorem kept_of_reset {outer inner : VerificationTokenRecord} {usedAt : ℕ} (h : Consistent d)
    (hr : Reset d d' row outer inner usedAt) :
    Kept d d' (strike outer.user_id .password_reset ∘ burn row.id usedAt) where
  ages := (ages_strike _ _).comp (ages_burn _ _)
  rows := by
    rw [hr.rows, List.map_map]
  clock := by
    rw [hr.clock]
    exact Nat.le_succ _
  redeemed := redeemed_of_burned h hr.burned
  burned id hid := by
    rw [hr.burned.redemptions] at hid
    rcases List.mem_cons.mp hid with rfl | hold
    · have hages := (ages_strike outer.user_id .password_reset).comp (ages_burn row.id usedAt)
      refine .inr ⟨_, ?_, hages.id row, (ages_strike _ _).used _ (used_at_burn row usedAt)⟩
      rw [hr.rows, List.map_map]
      exact List.mem_map_of_mem (mem_tokens.mp hr.burned.present).1
    · exact .inl hold
  disabledAt u := .inl (congrFun hr.disabledAt u)
  resetAt u := by
    rw [hr.resetAt]
    by_cases hu : u = outer.user_id
    · subst hu
      refine .inr ⟨Function.update_self _ _ _, fun row' hpresent hpurpose huser => ?_⟩
      apply not_belongs_of_present hpresent
      rw [(ages_burn _ _).user_id, (ages_burn _ _).purpose]
      exact ⟨huser, hpurpose⟩
    · exact .inl (Function.update_of_ne hu _ _)
  unminted := hr.burned.unminted

theorem kept_of_flip {u : ℕ} (h : Consistent d) (hf : Flipped d d' u) :
    Kept d d' (strike u .password_reset) where
  ages := ages_strike u .password_reset
  rows := hf.rows
  clock := by
    rw [clock_of_spares hf.accounts]
    exact Nat.le_succ _
  redeemed := hf.redemptions ▸ h.redeemed
  burned id hid := .inl (hf.redemptions ▸ hid)
  disabledAt w := by
    refine (hf.accounts.disabledAt w).imp_right fun ⟨hwho, hclock⟩ => ⟨hclock, ?_⟩
    obtain rfl := Option.some.inj hwho
    exact fun row hpresent hpurpose huser => not_belongs_of_present hpresent ⟨huser, hpurpose⟩
  resetAt w := .inl (congrFun hf.accounts.resetAt w)
  unminted := hf.unminted

section Mint

variable {issuedAt : ℕ}

theorem mem_minted (hm : Minted deps d d' row issuedAt) {row' : VerificationTokenRecord} :
    row' ∈ d'.rows ↔
      (∃ old ∈ d.rows, strike row.user_id row.purpose old = row') ∨ row' = row := by
  rw [hm.rows, List.mem_append, List.mem_map, List.mem_singleton]

/-- The new link supersedes those of its account and purpose. -/
theorem mem_tokens_minted (hm : Minted deps d d' row issuedAt) {row' : VerificationTokenRecord}
    (h : row' ∈ d'.tokens) : (row' ∈ d.tokens ∧ ¬ row'.sameAs row) ∨ row' = row := by
  obtain ⟨hmem, hpresent⟩ := mem_tokens.mp h
  rcases (mem_minted hm).mp hmem with ⟨old, hold, rfl⟩ | rfl
  · have hother := not_belongs_of_present hpresent
    have hsame : strike row.user_id row.purpose old = old := by
      simp only [strike, belongs, Bool.and_eq_true, beq_iff_eq, if_neg hother]
    rw [hsame] at hpresent ⊢
    exact .inl ⟨mem_tokens.mpr ⟨hold, hpresent⟩, hother⟩
  · exact .inr rfl

/-- A claim is only ever replaced by a later one. -/
theorem claim_of_mint (hm : Minted deps d d' row issuedAt) {u : ℕ} {purpose : Purpose} {last : ℕ}
    (hlast : d.issueClaims u purpose = some last) :
    ∃ last', d'.issueClaims u purpose = some last' ∧ last ≤ last' := by
  rw [hm.issueClaims]
  by_cases hu : u = row.user_id
  · subst hu
    rw [Function.update_self]
    by_cases hpurpose : purpose = row.purpose
    · subst hpurpose
      rw [Function.update_self]
      exact ⟨issuedAt, rfl, (Nat.le_add_right _ _).trans (hm.window last hlast)⟩
    · rw [Function.update_of_ne hpurpose]
      exact ⟨last, hlast, le_rfl⟩
  · rw [Function.update_of_ne hu]
    exact ⟨last, hlast, le_rfl⟩

/-- The new link is live, and those it supersedes are struck. -/
theorem consistent_of_mint (h : Consistent d) (hm : Minted deps d d' row issuedAt) :
    Consistent d' := by
  have hages := ages_strike row.user_id row.purpose
  have hclock : d'.accounts.clock = d.accounts.clock + 1 := by
    rw [hm.accounts]
    rfl
  have hold : ∀ old ∈ d.rows, old.number < row.number := by
    intro old hmem
    have hle := h.numbers old hmem
    have hnumber := hm.number
    omega
  constructor
  · rw [hm.rows, List.map_append]
    refine List.nodup_append.mpr ⟨h.ids_map hages, List.nodup_singleton _, ?_⟩
    intro id hid id' hid'
    obtain ⟨_, hstruck, rfl⟩ := List.mem_map.mp hid
    obtain ⟨old, hmem, rfl⟩ := List.mem_map.mp hstruck
    rw [List.mem_singleton.mp hid', hages.id]
    exact (hm.fresh old hmem).1
  · rw [hm.rows, List.map_append]
    refine List.nodup_append.mpr ⟨h.hashes_map hages, List.nodup_singleton _, ?_⟩
    intro hash hhash hash' hhash'
    obtain ⟨_, hstruck, rfl⟩ := List.mem_map.mp hhash
    obtain ⟨old, hmem, rfl⟩ := List.mem_map.mp hstruck
    rw [List.mem_singleton.mp hhash', hages.token_hash]
    exact (hm.fresh old hmem).2
  · intro row' hrow'
    rcases (mem_minted hm).mp hrow' with ⟨old, hmem, rfl⟩ | rfl
    · have hle := h.numbers old hmem
      rw [hages.number]
      omega
    · exact hm.number.le
  · intro row' hrow' other' hother' hsame hne
    have hnewer := (mem_minted hm).mp hother'
    rcases mem_tokens_minted hm hrow' with ⟨hrow, hdiffers⟩ | rfl
    · -- the new link is of another account or purpose
      rcases hnewer with ⟨other, hother, rfl⟩ | rfl
      · rw [hages.number]
        rw [hages.id] at hne
        refine h.newest row' hrow other hother ⟨?_, ?_⟩ hne
        · rw [← hages.user_id other]
          exact hsame.1
        · rw [← hages.purpose other]
          exact hsame.2
      · exact absurd ⟨hsame.1.symm, hsame.2.symm⟩ hdiffers
    · rcases hnewer with ⟨other, hother, rfl⟩ | rfl
      · rw [hages.number]
        exact hold other hother
      · exact absurd rfl hne
  · exact hm.redemptions ▸ h.redeemed
  · intro id hid
    rw [hm.redemptions] at hid
    obtain ⟨old, hmem, hrow, hused⟩ := h.burned id hid
    exact ⟨_, (mem_minted hm).mpr (.inl ⟨old, hmem, rfl⟩), (hages.id old).trans hrow,
      hages.used old hused⟩
  · intro row' hrow' hpurpose
    rw [hm.accounts]
    rcases mem_tokens_minted hm hrow' with ⟨hrow, -⟩ | rfl
    · have hstands := h.standing row' hrow hpurpose
      exact ⟨hstands.disabledAt, hstands.resetAt⟩
    · have hnumber := hm.number
      have hdisabled := h.disabledAt row'.user_id
      have hreset := h.resetAt row'.user_id
      constructor
      · show d.accounts.disabledAt row'.user_id < row'.number
        omega
      · show d.accounts.resetAt row'.user_id < row'.number
        omega
  · intro u
    have hle := h.disabledAt u
    rw [hclock, hm.accounts]
    exact Nat.le_succ_of_le hle
  · intro u
    have hle := h.resetAt u
    rw [hclock, hm.accounts]
    exact Nat.le_succ_of_le hle
  · intro m hmem
    rw [hm.mints] at hmem
    rcases List.mem_cons.mp hmem with rfl | hmem
    · refine ⟨issuedAt, ?_, le_rfl⟩
      rw [hm.issueClaims, Function.update_self, Function.update_self]
    · obtain ⟨last, hlast, hle⟩ := h.claimed m hmem
      obtain ⟨last', hlast', hle'⟩ := claim_of_mint hm hlast
      exact ⟨last', hlast', hle.trans hle'⟩
  · rw [hm.mints, List.pairwise_cons]
    refine ⟨fun m hmem hsame => ?_, h.apart⟩
    obtain ⟨last, hlast, hle⟩ := h.claimed m hmem
    rw [← hsame.1, ← hsame.2] at hlast
    have hwindow := hm.window last hlast
    exact (Nat.add_le_add_right hle _).trans hwindow

end Mint

theorem consistent_of_change (h : Consistent d) (hc : Change deps d d') : Consistent d' := by
  cases hc with
  | quiet hq => exact h.kept (kept_of_quiet h hq)
  | mint row issuedAt hm => exact consistent_of_mint h hm
  | verify row usedAt hv => exact h.kept (kept_of_verify h hv)
  | reset row outer inner usedAt hr => exact h.kept (kept_of_reset h hr)
  | flip userId hf => exact h.kept (kept_of_flip h hf)

end Steps

/-! ## States -/

/-- No link is redeemed twice, one link of a purpose works, and mints are a
window apart. -/
structure SingleUse (d : LinkTables) : Prop where
  redeemed : d.redemptions.Nodup
  only : ∀ now, ∀ row ∈ d.tokens, ∀ row' ∈ d.tokens, isLive now row = true →
    isLive now row' = true → row.sameAs row' → row = row'
  apart : d.mints.Pairwise Apart

theorem Consistent.singleUse (h : Consistent d) : SingleUse d where
  redeemed := h.redeemed
  only now row hrow row' hrow' _ _ hsame := by
    by_contra hne
    have hmem := (mem_tokens.mp hrow).1
    have hmem' := (mem_tokens.mp hrow').1
    have hid : row.id ≠ row'.id := fun heq => hne (h.eq_of_id hmem hmem' heq)
    have hlt := h.newest row' hrow' row hmem hsame hid
    have hlt' := h.newest row hrow row' hmem' ⟨hsame.1.symm, hsame.2.symm⟩ hid.symm
    omega
  apart := h.apart

/-! ## Actions -/

/-- The link of a reset: it is there, unused, the newest of its account, and
newer than its latest disable and reset. -/
structure Resets (d d' : LinkTables) (u : ℕ) (row : VerificationTokenRecord) : Prop where
  owner : row.user_id = u
  purpose : row.purpose = .password_reset
  burned : Burned d d' row
  newest : ∀ other ∈ d.rows, other.sameAs row → other.id ≠ row.id → other.number < row.number
  standing : Standing d.accounts row

/-- What every commit promises about the links. -/
structure Guarded (deps : Deps) (d d' : LinkTables) : Prop where
  clock : d'.accounts.clock = d.accounts.clock + 1
  redemptions : d'.redemptions = d.redemptions ∨ ∃ row, Burned d d' row
  passwords : ∀ u, (d'.accounts.users u).map (·.password_hash) ≠
    (d.accounts.users u).map (·.password_hash) →
      d'.accounts.resetAt u = d'.accounts.clock ∧ ∃ row, Resets d d' u row
  disables : ∀ u user', d'.accounts.users u = some user' → user'.status = .disabled →
    (∃ user, d.accounts.users u = some user ∧ user.status = .disabled) ∨
      d'.accounts.disabledAt u = d'.accounts.clock
  resetAt : ∀ u, d.accounts.resetAt u ≤ d'.accounts.resetAt u
  disabledAt : ∀ u, d.accounts.disabledAt u ≤ d'.accounts.disabledAt u
  windows : d'.issueClaims = d.issueClaims ∨ ∃ row issuedAt, Minted deps d d' row issuedAt
  mints : ∀ row ∈ d'.rows, (∀ old ∈ d.rows, old.id ≠ row.id) →
    ∃ issuedAt, Minted deps d d' row issuedAt
  usable : ∀ row ∈ d.tokens, row.used_at = none → row ∈ d'.tokens ∨ Burned d d' row ∨
    (∃ new issuedAt, Minted deps d d' new issuedAt ∧ row.sameAs new) ∨
    row.purpose = .password_reset ∧ ((∃ used, Resets d d' row.user_id used) ∨
      Flipped d d' row.user_id)

section Actions

variable {row : VerificationTokenRecord}

/-- Under one token there is one link, so the link burned is the one read. -/
theorem resets_of_reset {outer inner : VerificationTokenRecord} {usedAt : ℕ} (h : Consistent d)
    (hr : Reset d d' row outer inner usedAt) : Resets d d' outer.user_id row := by
  obtain ⟨known, hknown, houter⟩ := hr.knownOuter
  obtain ⟨known', hknown', hinner⟩ := hr.knownInner
  simp only [VerificationTokenRecord.stamp, Prod.mk.injEq] at houter hinner
  obtain ⟨-, huser, htoken, -⟩ := houter
  obtain ⟨hid, huser', htoken', hpurpose, -⟩ := hinner
  have hsame : known' = known := by
    apply List.inj_on_of_nodup_map h.hashes hknown' hknown
    exact htoken'.trans (hr.token.trans htoken.symm)
  have hrow : known' = row :=
    h.eq_of_id hknown' (mem_tokens.mp hr.burned.present).1 (hid.trans hr.id.symm)
  have hreset : row.purpose = .password_reset := by
    rw [← hrow, hpurpose, hr.purpose]
  refine ⟨?_, hreset, hr.burned, h.newest row hr.burned.present,
    h.standing row hr.burned.present hreset⟩
  rw [← hrow, hsame, huser]

/-- A row that a commit keeps but a struck one is as it was. -/
theorem strike_eq_or (u : ℕ) (purpose : Purpose) (row : VerificationTokenRecord) :
    strike u purpose row = row ∨ row.user_id = u ∧ row.purpose = purpose := by
  by_cases hbelongs : belongs u purpose row = true
  · rw [belongs, Bool.and_eq_true, beq_iff_eq, beq_iff_eq] at hbelongs
    exact .inr hbelongs
  · exact .inl (if_neg hbelongs)

theorem burn_eq_or (h : Consistent d) {burned : VerificationTokenRecord} (usedAt : ℕ)
    (hrow : row ∈ d.rows) (hburned : burned ∈ d.rows) :
    burn burned.id usedAt row = row ∨ row = burned := by
  by_cases hid : row.id = burned.id
  · exact .inr (h.eq_of_id hrow hburned hid)
  · exact .inl (if_neg hid)

theorem Change.clock (hc : Change deps d d') :
    d'.accounts.clock = d.accounts.clock + 1 := by
  cases hc with
  | quiet hq => exact clock_of_spares hq.accounts
  | mint row issuedAt hm =>
    rw [hm.accounts]
    rfl
  | verify row usedAt hv => exact clock_of_spares hv.accounts
  | reset row outer inner usedAt hr => exact hr.clock
  | flip userId hf => exact clock_of_spares hf.accounts

theorem Change.redemptions (hc : Change deps d d') :
    d'.redemptions = d.redemptions ∨ ∃ row, Burned d d' row := by
  cases hc with
  | quiet hq => exact .inl hq.redemptions
  | mint row issuedAt hm => exact .inl hm.redemptions
  | verify row usedAt hv => exact .inr ⟨row, hv.burned⟩
  | reset row outer inner usedAt hr => exact .inr ⟨row, hr.burned⟩
  | flip userId hf => exact .inl hf.redemptions

/-- A password changes only with a reset, under its link. -/
theorem Change.passwords (h : Consistent d) (hc : Change deps d d') {u : ℕ}
    (hne : (d'.accounts.users u).map (·.password_hash) ≠
      (d.accounts.users u).map (·.password_hash)) :
    d'.accounts.resetAt u = d'.accounts.clock ∧ ∃ row, Resets d d' u row := by
  cases hc with
  | quiet hq => exact absurd (hq.accounts.passwords u) hne
  | mint row issuedAt hm =>
    rw [hm.accounts] at hne
    exact absurd rfl hne
  | verify row usedAt hv => exact absurd (hv.accounts.passwords u) hne
  | reset row outer inner usedAt hr =>
    by_cases hu : u = outer.user_id
    · subst hu
      refine ⟨?_, row, resets_of_reset h hr⟩
      rw [hr.resetAt, Function.update_self]
    · exact absurd (hr.passwords u hu) hne
  | flip userId hf => exact absurd (hf.accounts.passwords u) hne

/-- Who goes dark was dark, or is disabled now. -/
theorem Change.disables (hc : Change deps d d') {u : ℕ} {user' : UserRecord}
    (huser' : d'.accounts.users u = some user') (hdark : user'.status = .disabled) :
    (∃ user, d.accounts.users u = some user ∧ user.status = .disabled) ∨
      d'.accounts.disabledAt u = d'.accounts.clock := by
  cases hc with
  | quiet hq => exact hq.accounts.recorded user' huser' hdark
  | mint row issuedAt hm =>
    rw [hm.accounts] at huser'
    exact .inl ⟨user', huser', hdark⟩
  | verify row usedAt hv => exact hv.accounts.recorded user' huser' hdark
  | reset row outer inner usedAt hr => exact .inl (hr.dark u user' huser' hdark)
  | flip userId hf =>
    by_cases hu : userId = u
    · subst hu
      exact hf.recorded user' huser' hdark
    · refine .inl (hf.accounts.dark u ?_ user' huser' hdark)
      exact fun heq => hu (Option.some.inj heq)

theorem Change.resetAt (h : Consistent d) (hc : Change deps d d') (u : ℕ) :
    d.accounts.resetAt u ≤ d'.accounts.resetAt u := by
  have hle := h.resetAt u
  cases hc with
  | quiet hq => exact (congrFun hq.accounts.resetAt u).ge
  | mint row issuedAt hm =>
    rw [hm.accounts]
    exact le_rfl
  | verify row usedAt hv => exact (congrFun hv.accounts.resetAt u).ge
  | reset row outer inner usedAt hr =>
    have hclock := hr.clock
    rw [hr.resetAt, Function.update_apply]
    split
    · omega
    · exact le_rfl
  | flip userId hf => exact (congrFun hf.accounts.resetAt u).ge

theorem Change.disabledAt (h : Consistent d) (hc : Change deps d d') (u : ℕ) :
    d.accounts.disabledAt u ≤ d'.accounts.disabledAt u := by
  have hle := h.disabledAt u
  have hclock := hc.clock
  cases hc with
  | quiet hq => exact (disabledAt_of_spares hq.accounts u).ge
  | mint row issuedAt hm =>
    rw [hm.accounts]
    exact le_rfl
  | verify row usedAt hv => exact (disabledAt_of_spares hv.accounts u).ge
  | reset row outer inner usedAt hr => exact (congrFun hr.disabledAt u).ge
  | flip userId hf =>
    rcases hf.accounts.disabledAt u with hsame | ⟨-, hnew⟩
    · exact hsame.ge
    · omega

theorem Change.windows (hc : Change deps d d') :
    d'.issueClaims = d.issueClaims ∨ ∃ row issuedAt, Minted deps d d' row issuedAt := by
  cases hc with
  | quiet hq => exact .inl hq.unminted.issueClaims
  | mint row issuedAt hm => exact .inr ⟨row, issuedAt, hm⟩
  | verify row usedAt hv => exact .inl hv.burned.unminted.issueClaims
  | reset row outer inner usedAt hr => exact .inl hr.burned.unminted.issueClaims
  | flip userId hf => exact .inl hf.unminted.issueClaims

/-- A commit that is no mint adds no link. -/
theorem old_of_kept {f : VerificationTokenRecord → VerificationTokenRecord} (hk : Kept d d' f)
    (hrow : row ∈ d'.rows) : ∃ old ∈ d.rows, old.id = row.id := by
  rw [hk.rows] at hrow
  obtain ⟨old, hold, rfl⟩ := List.mem_map.mp hrow
  exact ⟨old, hold, (hk.ages.id old).symm⟩

theorem Change.kept_or_minted (h : Consistent d) (hc : Change deps d d') :
    (∃ f, Kept d d' f) ∨ ∃ row issuedAt, Minted deps d d' row issuedAt := by
  cases hc with
  | quiet hq => exact .inl ⟨_, kept_of_quiet h hq⟩
  | mint row issuedAt hm => exact .inr ⟨row, issuedAt, hm⟩
  | verify row usedAt hv => exact .inl ⟨_, kept_of_verify h hv⟩
  | reset row outer inner usedAt hr => exact .inl ⟨_, kept_of_reset h hr⟩
  | flip userId hf => exact .inl ⟨_, kept_of_flip h hf⟩

theorem Change.mints (h : Consistent d) (hc : Change deps d d') (hrow : row ∈ d'.rows)
    (hnew : ∀ old ∈ d.rows, old.id ≠ row.id) : ∃ issuedAt, Minted deps d d' row issuedAt := by
  rcases hc.kept_or_minted h with ⟨f, hk⟩ | ⟨new, issuedAt, hm⟩
  · obtain ⟨old, hold, hid⟩ := old_of_kept hk hrow
    exact absurd hid (hnew old hold)
  · rcases (mem_minted hm).mp hrow with ⟨old, hold, rfl⟩ | rfl
    · exact absurd ((ages_strike _ _).id old).symm (hnew old hold)
    · exact ⟨issuedAt, hm⟩

/-- An unused link stays unless it is burned, superseded or ended with the
others of its account. -/
theorem Change.usable (h : Consistent d) (hc : Change deps d d') (hrow : row ∈ d.tokens) :
    row ∈ d'.tokens ∨ Burned d d' row ∨
      (∃ new issuedAt, Minted deps d d' new issuedAt ∧ row.sameAs new) ∨
      row.purpose = .password_reset ∧ ((∃ used, Resets d d' row.user_id used) ∨
        Flipped d d' row.user_id) := by
  obtain ⟨hmem, hpresent⟩ := mem_tokens.mp hrow
  cases hc with
  | quiet hq => exact .inl (mem_tokens.mpr ⟨hq.rows ▸ hmem, hpresent⟩)
  | mint new issuedAt hm =>
    rcases strike_eq_or new.user_id new.purpose row with hsame | hstruck
    · refine .inl (mem_tokens.mpr ⟨?_, hpresent⟩)
      exact (mem_minted hm).mpr (.inl ⟨row, hmem, hsame⟩)
    · exact .inr (.inr (.inl ⟨new, issuedAt, hm, hstruck⟩))
  | verify burned usedAt hv =>
    rcases burn_eq_or h usedAt hmem (mem_tokens.mp hv.burned.present).1 with hsame | rfl
    · refine .inl (mem_tokens.mpr ⟨?_, hpresent⟩)
      rw [hv.rows]
      exact List.mem_map.mpr ⟨row, hmem, hsame⟩
    · exact .inr (.inl hv.burned)
  | reset burned outer inner usedAt hr =>
    rcases burn_eq_or h usedAt hmem (mem_tokens.mp hr.burned.present).1 with hsame | rfl
    · rcases strike_eq_or outer.user_id .password_reset row with hstays | ⟨huser, hpurpose⟩
      · refine .inl (mem_tokens.mpr ⟨?_, hpresent⟩)
        rw [hr.rows, List.map_map]
        refine List.mem_map.mpr ⟨row, hmem, ?_⟩
        rw [Function.comp, hsame, hstays]
      · rw [huser]
        exact .inr (.inr (.inr ⟨hpurpose, .inl ⟨burned, resets_of_reset h hr⟩⟩))
    · exact .inr (.inl hr.burned)
  | flip userId hf =>
    rcases strike_eq_or userId .password_reset row with hstays | ⟨huser, hpurpose⟩
    · refine .inl (mem_tokens.mpr ⟨?_, hpresent⟩)
      rw [hf.rows]
      exact List.mem_map.mpr ⟨row, hmem, hstays⟩
    · rw [huser]
      exact .inr (.inr (.inr ⟨hpurpose, .inr hf⟩))

theorem guarded_of_change (h : Consistent d) (hc : Change deps d d') : Guarded deps d d' where
  clock := hc.clock
  redemptions := hc.redemptions
  passwords _ := hc.passwords h
  disables _ _ := hc.disables
  resetAt := hc.resetAt h
  disabledAt := hc.disabledAt h
  windows := hc.windows
  mints _ := hc.mints h
  usable _ hrow _ := hc.usable h hrow

end Actions

/-! ## Runs -/

section Runs

variable {ok : World → LinkOp → Prop} {s s' : World} {ts : ℕ → Option (Program World Chance Unit)}

theorem singleUse_of_reachable (h : Pool.Reachable (linkProgram deps isolation)
    (fun s => Consistent s.data) ok Leased.stop s ts) : SingleUse s.data :=
  (linkDiscipline.invariant (I := Consistent) (fun _ hs => hs)
    (fun _ _ _ => consistent_of_change) linkProgram_sound h).1.singleUse

theorem guarded_of_transition (h : Pool.Transition (linkProgram deps isolation)
    (fun s => Consistent s.data) ok Leased.stop s s') :
    s.data = s'.data ∨ Guarded deps s.data s'.data := by
  obtain ⟨hs, hchange⟩ := Discipline.transition (I := Consistent) (fun _ hs => hs)
    (fun _ _ _ => consistent_of_change) linkProgram_sound h
  exact hchange.imp_right (guarded_of_change hs)

/-- Recovery links are single-use, and only the newest works: in every state of
a run, and by every action. A request for a link mints it whole, with its window
and its message, or does nothing. -/
theorem links_are_single_use (deps : Deps) (isolation : Isolation) (ok : World → LinkOp → Prop) :
    (∀ s ts, Pool.Reachable (linkProgram deps isolation) (fun s => Consistent s.data) ok
      Leased.stop s ts → SingleUse s.data) ∧
    (∀ s s', Pool.Transition (linkProgram deps isolation) (fun s => Consistent s.data) ok
      Leased.stop s s' → s.data = s'.data ∨ Guarded deps s.data s'.data) ∧
    ∀ op : LinkOp, op.mints → ∀ slot s, wp (linkDiscipline.Kept slot)
      (linkDiscipline.Guar (fun _ => Whole deps) slot) (linkProgram deps isolation slot op)
      (fun _ _ => True) s :=
  ⟨fun _ _ => singleUse_of_reachable, fun _ _ => guarded_of_transition,
    fun _ hop => linkProgram_whole hop⟩

/-- A deployment with mail, and an account that has yet to verify its address. -/
def mailed : Deps := ⟨portal, fun _ => true⟩

def mailedTables : LinkTables where
  accounts := portalTables
  rows := [⟨5, 2, 5, .email_verification, 100, none, 0, 0, false⟩]
  issueClaims _ _ := none
  outbox := []
  mints := []
  redemptions := []

def mailedWorld : World :=
  ⟨mailedTables, fun _ => none, 0, fun _ => 0, fun _ => mailedTables, none⟩

theorem consistent_mailedTables : Consistent mailedTables where
  ids := by decide
  hashes := by decide
  numbers := by decide
  newest := by
    intro row hrow other hother _ hne
    rw [List.mem_singleton.mp (mem_tokens.mp hrow).1, List.mem_singleton.mp hother] at hne
    exact absurd rfl hne
  redeemed := List.nodup_nil
  burned := nofun
  standing := by
    intro row hrow hpurpose
    rw [List.mem_singleton.mp (mem_tokens.mp hrow).1] at hpurpose
    cases hpurpose
  disabledAt _ := le_rfl
  resetAt _ := le_rfl
  claimed := nofun
  apart := List.Pairwise.nil

/-- Actions of a slot that all succeed, and what they are answered. -/
def answered (slot : ℕ) (answers : List ℕ) : List (Pool.Event LinkOp Chance) :=
  answers.map fun answer => .step slot ⟨.ok, answer⟩

/-- A link is asked for and redeemed, up to the commit. -/
def annResets : List (Pool.Event LinkOp Chance) :=
  .start 0 (.requestPasswordReset "ann@x.org") ::
    answered 0 [7, 7, 7, 7, 7, 7, 7, 7, 0, 7, 7, 7, 7, 7, 7, 7, 0, 7, 7] ++
  .start 1 (.resetPassword 7 "correct horse") :: answered 1 (List.replicate 14 7)

theorem links_are_single_use_ann :
    (∃ s ts, Pool.Reachable (linkProgram mailed .serialized) (fun s => Consistent s.data)
      (fun _ _ => True) Leased.stop s ts ∧ s.data.redemptions = [7] ∧ SingleUse s.data) ∧
    (∃ s s', Pool.Transition (linkProgram mailed .serialized) (fun s => Consistent s.data)
      (fun _ _ => True) Leased.stop s s' ∧
      (s.data.redemptions = [] ∧ s'.data.redemptions = [7]) ∧
      (s.data = s'.data ∨ Guarded mailed s.data s'.data)) ∧
    wp (linkDiscipline.Kept 0) (linkDiscipline.Guar (fun _ => Whole mailed) 0)
      (linkProgram mailed .serialized 0 (.requestPasswordReset "ann@x.org")) (fun _ _ => True)
      mailedWorld := by
  obtain ⟨hstates, hactions, hmints⟩ :=
    links_are_single_use mailed .serialized fun _ _ => True
  refine ⟨?_, ?_, hmints (.requestPasswordReset "ann@x.org") trivial 0 mailedWorld⟩
  · obtain ⟨s, ts, hs, hredeemed⟩ := Pool.exists_reachable_of_exec
      (linkProgram mailed .serialized) (fun s => Consistent s.data) (fun _ _ => True) Leased.stop
      (annResets ++ answered 1 [7]) (fun s => s.data.redemptions == [7]) (fun _ _ => trivial)
      (s := mailedWorld) consistent_mailedTables (by decide +kernel)
    exact ⟨s, ts, hs, beq_iff_eq.mp hredeemed, hstates s ts hs⟩
  · obtain ⟨s, s', h, hredeemed⟩ := Pool.exists_transition
      (linkProgram mailed .serialized) (fun s => Consistent s.data) (fun _ _ => True) Leased.stop
      annResets 1 ⟨.ok, 7⟩
      (fun s s' => s.data.redemptions == [] && s'.data.redemptions == [7]) (fun _ _ => trivial)
      (s := mailedWorld) consistent_mailedTables (by decide +kernel)
    rw [Bool.and_eq_true, beq_iff_eq, beq_iff_eq] at hredeemed
    exact ⟨s, s', h, hredeemed, hactions s s' h⟩

end Runs

end FerrumNexus.Links
