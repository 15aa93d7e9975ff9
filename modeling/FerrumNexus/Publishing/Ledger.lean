import FerrumNexus.Publishing.Restore

/-!
# The ledger of conditional requests

What the store and the gateway know of conditional writes: the row, the two
journals, and the requests that were sent and acknowledged. `Ledger.Step` is
what one action may do to it, and `Ledger.Inv` what the reachable ledgers have
in common. A request edits a journal of its own in memory; `Fits` says that
saving it is a step the ledger allows.
-/
namespace FerrumNexus.Publishing

open Saga Platform

structure Ledger (J : Type) where
  api : Option (ApiRecord J)
  recovery : Option (ConversionRecovery J)
  cleanup : Option (CleanupJournal J)
  fresh : ℕ
  sent : List Request
  acked : List Request

section Ledgers

variable {J : Type}

def PublishingState.ledger (s : PublishingState J) : Ledger J :=
  ⟨s.api, s.recovery, s.cleanup, s.fresh, s.sent, s.acked⟩

/-- Every entry a cleanup journal holds. -/
def CleanupJournal.entries (journal : CleanupJournal J) : List (Mutation J) :=
  journal.entry :: journal.cutover.toList

def storedConversion (recovery : Option (ConversionRecovery J)) : List (Mutation J) :=
  recovery.elim [] (·.mutations)

def storedCleanup (cleanup : Option (CleanupJournal J)) : List (Mutation J) :=
  cleanup.elim [] (·.entries)

namespace Ledger

/-- The journalled entries of the API. -/
def stored (l : Ledger J) : List (Mutation J) :=
  storedConversion l.recovery ++ storedCleanup l.cleanup

/-- The requests of the entries that are not acknowledged. -/
def pending (l : Ledger J) : List Request :=
  (l.stored.filter (!·.acknowledged)).map (·.request)

/-- What one action may do. Nothing is said of a ledger that stays the same. -/
structure Step (l l' : Ledger J) : Prop where
  /-- A request is sent once, and only while it is the one pending entry. -/
  sends : l'.sent = l.sent ∨ ∃ request, l'.sent = request :: l.sent ∧ l.pending = [request] ∧
    request ∉ l.sent
  /-- An entry is acknowledged only after the gateway acknowledged its request. -/
  acknowledges : ∀ m ∈ l'.stored, m.acknowledged = true → m.request ∈ l.acked
  /-- A stored journal keeps the entry of every request that was sent, and its
  original authority. -/
  conversion : ∀ r r', l.recovery = some r → l'.recovery = some r' →
    (∀ m ∈ r.mutations, m.request ∈ l.sent → ∃ m' ∈ r'.mutations, m'.request = m.request) ∧
    ∀ original, r.originalAuthority = some original → r'.originalAuthority = some original
  cleanup : ∀ c c', l.cleanup = some c → l'.cleanup = some c' →
    ∀ m ∈ c.entries, m.request ∈ l.sent → ∃ m' ∈ c'.entries, m'.request = m.request
  /-- No journal goes while an entry is pending, except that a failed rebuild
  drops its cleanup journal once the gateway acknowledged the removal. -/
  conversionEnds : l.recovery.isSome → l'.recovery = none → l.pending = []
  cleanupEnds : l.cleanup.isSome → l'.cleanup = none → ∀ request ∈ l.pending, request ∈ l.acked
  /-- No row returns to `deployed` while an entry is pending. -/
  deploys : ∀ row', l'.api = some row' → row'.gatewayState = .deployed →
    (∃ row, l.api = some row ∧ row.gatewayState = .deployed) ∨ l.pending = []

/-- What reachable ledgers have in common. -/
structure Inv (l : Ledger J) : Prop where
  acked : ∀ m ∈ l.stored, m.acknowledged = true → m.request ∈ l.acked
  drawn : ∀ m ∈ l.stored, m.call < l.fresh
  sent : ∀ request ∈ l.sent, request.call < l.fresh
  converting : l.recovery.isSome → ∀ row, l.api = some row → row.gatewayState = .repairRequired
  cleaning : l.cleanup.isSome → ∀ row, l.api = some row →
    row.ferrumProxyId = none ∨ row.gatewayState = .repairRequired

def Guar (l l' : Ledger J) : Prop := Inv l → Step l l' ∧ Inv l'

variable {l : Ledger J} {r : ConversionRecovery J} {api : Option (ApiRecord J)}

/-- A step that keeps the journals: the requests, the row or the supply of ids
may move. -/
theorem guar_of_journals {l' : Ledger J} (hrecovery : l'.recovery = l.recovery)
    (hcleanup : l'.cleanup = l.cleanup) (hfresh : l.fresh ≤ l'.fresh)
    (hsent : l'.sent = l.sent) (hacked : l'.acked = l.acked)
    (hapi : ∀ row', l'.api = some row' → l.api = some row' ∨ row'.gatewayState = .repairRequired) :
    Guar l l' := by
  intro hinv
  have hstored : l'.stored = l.stored := by rw [stored, stored, hrecovery, hcleanup]
  refine ⟨⟨.inl hsent, ?_, ?_, ?_, ?_, ?_, ?_⟩, ⟨?_, ?_, ?_, ?_, ?_⟩⟩
  · rw [hstored]
    exact hinv.acked
  · intro r r' hr hr'
    rw [hrecovery, hr] at hr'
    cases hr'
    exact ⟨fun m hm _ => ⟨m, hm, rfl⟩, fun _ h => h⟩
  · intro c c' hc hc'
    rw [hcleanup, hc] at hc'
    cases hc'
    exact fun m hm _ => ⟨m, hm, rfl⟩
  · intro hsome hnone
    rw [hrecovery] at hnone
    rw [hnone] at hsome
    cases hsome
  · intro hsome hnone
    rw [hcleanup] at hnone
    rw [hnone] at hsome
    cases hsome
  · intro row' hrow hdeployed
    rcases hapi row' hrow with hsame | hrepair
    · exact .inl ⟨row', hsame, hdeployed⟩
    · rw [hrepair] at hdeployed
      cases hdeployed
  · rw [hstored, hacked]
    exact hinv.acked
  · rw [hstored]
    exact fun m hm => (hinv.drawn m hm).trans_le hfresh
  · rw [hsent]
    exact fun request hm => (hinv.sent request hm).trans_le hfresh
  · rw [hrecovery]
    intro hsome row hrow
    rcases hapi row hrow with hsame | hrepair
    · exact hinv.converting hsome row hsame
    · exact hrepair
  · rw [hcleanup]
    intro hsome row hrow
    rcases hapi row hrow with hsame | hrepair
    · exact hinv.cleaning hsome row hsame
    · exact .inr hrepair

theorem Guar.refl (l : Ledger J) : Guar l l :=
  guar_of_journals rfl rfl le_rfl rfl rfl fun _ h => .inl h

/-- Sending the one pending request. -/
theorem guar_send {request : Request} (hpending : l.pending = [request])
    (hunsent : request ∉ l.sent) (acked : List Request) (hacked : ∀ a ∈ l.acked, a ∈ acked) :
    Guar l { l with sent := request :: l.sent, acked := acked } := by
  intro hinv
  refine ⟨⟨.inr ⟨request, rfl, hpending, hunsent⟩, hinv.acked, ?_, ?_, ?_, ?_, ?_⟩, ⟨?_, hinv.drawn, ?_,
    hinv.converting, hinv.cleaning⟩⟩
  · intro r r' hr hr'
    rw [hr] at hr'
    cases hr'
    exact ⟨fun m hm _ => ⟨m, hm, rfl⟩, fun _ h => h⟩
  · intro c c' hc hc'
    rw [hc] at hc'
    cases hc'
    exact fun m hm _ => ⟨m, hm, rfl⟩
  · intro hsome hnone
    rw [hnone] at hsome
    cases hsome
  · intro hsome hnone
    rw [hnone] at hsome
    cases hsome
  · exact fun row' hrow hdeployed => .inl ⟨row', hrow, hdeployed⟩
  · exact fun m hm hack => hacked _ (hinv.acked m hm hack)
  · intro sent hsent
    rcases List.mem_cons.mp hsent with rfl | hold
    · have hmem : sent ∈ l.pending := hpending ▸ List.mem_singleton_self sent
      obtain ⟨m, hm, rfl⟩ := List.mem_map.mp hmem
      exact hinv.drawn m (List.mem_filter.mp hm).1
    · exact hinv.sent sent hold

/-- A journal that may be saved over the stored one: its acknowledged entries
are, and it keeps what was sent and the original authority. -/
structure Fits (l : Ledger J) (r : ConversionRecovery J) : Prop where
  acked : ∀ m ∈ r.mutations, m.acknowledged = true → m.request ∈ l.acked
  drawn : ∀ m ∈ r.mutations, m.call < l.fresh
  kept : ∀ stored, l.recovery = some stored →
    (∀ m ∈ stored.mutations, m.request ∈ l.sent → ∃ m' ∈ r.mutations, m'.request = m.request) ∧
    ∀ original, stored.originalAuthority = some original → r.originalAuthority = some original

/-- Once the journal in memory is acknowledged, so is the stored one. -/
def Agreed (l : Ledger J) (r : ConversionRecovery J) : Prop :=
  r.mutations.all (·.acknowledged) = true →
    ∀ stored, l.recovery = some stored → stored.mutations.all (·.acknowledged) = true

theorem fits_self (hinv : Inv l) (hr : l.recovery = some r) : Fits l r := by
  have hstored : ∀ m ∈ r.mutations, m ∈ l.stored := by
    intro m hm
    refine List.mem_append_left _ ?_
    rw [hr]
    exact hm
  refine ⟨fun m hm => hinv.acked m (hstored m hm), fun m hm => hinv.drawn m (hstored m hm), ?_⟩
  intro stored hs
  rw [hr] at hs
  cases hs
  exact ⟨fun m hm _ => ⟨m, hm, rfl⟩, fun _ h => h⟩

theorem agreed_self (hr : l.recovery = some r) :
    Agreed l r := by
  intro hall stored hs
  rw [hr] at hs
  cases hs
  exact hall

/-- Saving a journal that fits, beside no cleanup journal and a row that is
flagged. -/
theorem guar_save (hcleanup : l.cleanup = none) (hfits : Fits l r)
    (hapi : ∀ row, api = some row → row.gatewayState = .repairRequired) :
    Guar l { l with api := api, recovery := some r } := by
  intro hinv
  have hstored : ({ l with api := api, recovery := some r } : Ledger J).stored = r.mutations := by
    simp [stored, storedConversion, storedCleanup, hcleanup]
  refine ⟨⟨.inl rfl, ?_, ?_, ?_, ?_, ?_, ?_⟩, ⟨?_, ?_, hinv.sent, ?_, ?_⟩⟩
  · rw [hstored]
    exact hfits.acked
  · intro stored r' hs hr'
    cases hr'
    exact hfits.kept stored hs
  · intro c c' hc
    rw [hcleanup] at hc
    cases hc
  · intro _ hnone
    cases hnone
  · intro hsome
    rw [hcleanup] at hsome
    cases hsome
  · intro row' hrow hdeployed
    rw [hapi row' hrow] at hdeployed
    cases hdeployed
  · rw [hstored]
    exact hfits.acked
  · rw [hstored]
    exact hfits.drawn
  · exact fun _ => hapi
  · intro hsome
    simp only [hcleanup] at hsome
    cases hsome

theorem Inv.save (h : Inv l) (hcleanup : l.cleanup = none) (hjournalled : l.recovery.isSome)
    (hfits : Fits l r) : ({ l with recovery := some r } : Ledger J).Inv := by
  have hguar : Guar l { l with api := l.api, recovery := some r } :=
    guar_save hcleanup hfits (h.converting hjournalled)
  exact (hguar h).2

/-- The end of a conversion journal whose entries are all acknowledged. -/
theorem guar_endConversion (hcleanup : l.cleanup = none)
    (hall : ∀ r, l.recovery = some r → r.mutations.all (·.acknowledged) = true) :
    Guar l { l with api := api, recovery := none } := by
  intro hinv
  have hpending : l.pending = [] := by
    have hnone : l.stored.filter (!·.acknowledged) = [] := by
      refine List.filter_eq_nil_iff.mpr ?_
      intro m hm
      simp only [stored, hcleanup, storedCleanup, Option.elim_none, List.append_nil] at hm
      cases hr : l.recovery with
      | none => simp [hr, storedConversion] at hm
      | some r =>
        rw [hr] at hm
        simpa using List.all_eq_true.mp (hall r hr) m hm
    rw [pending, hnone, List.map_nil]
  have hstored : ({ l with api := api, recovery := none } : Ledger J).stored = [] := by
    simp [stored, storedConversion, storedCleanup, hcleanup]
  refine ⟨⟨.inl rfl, ?_, ?_, ?_, ?_, ?_, ?_⟩, ⟨?_, ?_, hinv.sent, ?_, ?_⟩⟩
  · rw [hstored]
    exact fun m hm => absurd hm List.not_mem_nil
  · intro _ r' _ hr'
    cases hr'
  · intro c c' hc
    rw [hcleanup] at hc
    cases hc
  · exact fun _ _ => hpending
  · intro hsome
    rw [hcleanup] at hsome
    cases hsome
  · exact fun _ _ _ => .inr hpending
  · rw [hstored]
    exact fun m hm => absurd hm List.not_mem_nil
  · rw [hstored]
    exact fun m hm => absurd hm List.not_mem_nil
  · intro hsome
    cases hsome
  · intro hsome
    simp only [hcleanup] at hsome
    cases hsome

/-- A cleanup journal beside no conversion: what it takes for its acknowledged
entries, and what it keeps of the journal it is saved over. -/
theorem guar_saveCleanup {c : CleanupJournal J} (hrecovery : l.recovery = none)
    (hacked : ∀ m ∈ c.entries, m.acknowledged = true → m.request ∈ l.acked)
    (hdrawn : ∀ m ∈ c.entries, m.call < l.fresh)
    (hkept : ∀ stored, l.cleanup = some stored → ∀ m ∈ stored.entries,
      ∃ m' ∈ c.entries, m'.request = m.request)
    (hrows : ∀ row, l.api = some row →
      row.ferrumProxyId = none ∨ row.gatewayState = .repairRequired) :
    Guar l { l with cleanup := some c } := by
  intro hinv
  have hstored : ({ l with cleanup := some c } : Ledger J).stored = c.entries := by
    simp [stored, storedConversion, storedCleanup, hrecovery]
  refine ⟨⟨.inl rfl, ?_, ?_, ?_, ?_, ?_, ?_⟩, ⟨?_, ?_, hinv.sent, hinv.converting, fun _ => hrows⟩⟩
  · rw [hstored]
    exact hacked
  · intro r r' hr
    rw [hrecovery] at hr
    cases hr
  · intro stored c' hs hc' m hm _
    cases hc'
    exact hkept stored hs m hm
  · intro hsome
    rw [hrecovery] at hsome
    cases hsome
  · intro _ hnone
    cases hnone
  · exact fun row' hrow hdeployed => .inl ⟨row', hrow, hdeployed⟩
  · rw [hstored]
    exact hacked
  · rw [hstored]
    exact hdrawn

/-- The end of a cleanup journal whose requests were all acknowledged. A row
that is deployed by the same write needs more: nothing may be pending. -/
theorem guar_endCleanup (hacked : ∀ request ∈ l.pending, request ∈ l.acked)
    (hapi : ∀ row', api = some row' → l.api = some row' ∨
      row'.gatewayState = .repairRequired ∨ (l.pending = [] ∧ l.recovery = none)) :
    Guar l { l with api := api, cleanup := none } := by
  intro hinv
  have hstored : ∀ m ∈ ({ l with api := api, cleanup := none } : Ledger J).stored, m ∈ l.stored := by
    intro m hm
    simp only [stored, storedCleanup, Option.elim_none, List.append_nil] at hm
    exact List.mem_append_left _ hm
  refine ⟨⟨.inl rfl, ?_, ?_, ?_, ?_, fun _ _ => hacked, ?_⟩, ⟨?_, ?_, hinv.sent, ?_, nofun⟩⟩
  · exact fun m hm => hinv.acked m (hstored m hm)
  · intro r r' hr hr'
    rw [hr] at hr'
    cases hr'
    exact ⟨fun m hm _ => ⟨m, hm, rfl⟩, fun _ h => h⟩
  · intro c c' _ hc'
    cases hc'
  · intro hsome hnone
    rw [hnone] at hsome
    cases hsome
  · intro row' hrow hdeployed
    rcases hapi row' hrow with hsame | hrepair | hnone
    · exact .inl ⟨row', hsame, hdeployed⟩
    · rw [hrepair] at hdeployed
      cases hdeployed
    · exact .inr hnone.1
  · exact fun m hm => hinv.acked m (hstored m hm)
  · exact fun m hm => hinv.drawn m (hstored m hm)
  · intro hsome row' hrow
    rcases hapi row' hrow with hsame | hrepair | hnone
    · exact hinv.converting hsome row' hsame
    · exact hrepair
    · rw [hnone.2] at hsome
      cases hsome

end Ledger

end Ledgers

end FerrumNexus.Publishing
