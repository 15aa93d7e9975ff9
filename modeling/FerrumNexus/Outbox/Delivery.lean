import FerrumNexus.Outbox.Fencing

/-!
# One delivery a row

A run is calm while no settling write throws and no stale sweep meets a claim
that a worker still holds or that was already delivered. In a calm run a held
row is `sending` at its holder's generation, each row has one holder, and a
delivered row is settled or held by the worker that delivered it: so the relay
is handed a row at most once, and never a row that an address release met.
-/
namespace FerrumNexus.Outbox

open Platform
open Saga.History (replay Leads)

variable {casing : Casing} {s s' : OutboxState}

/-- A worker is in the middle of a claim. -/
structure Holding (workers : List Phase) (worker : ℕ) (phase : Phase) (entry : OutboxEntry) :
    Prop where
  here : workers[worker]? = some phase
  held : phase.entry? = some entry

def HeldAt (s : OutboxState) (id : ℕ) (generation : Option ℕ) : Prop :=
  ∃ worker phase entry, Holding s.workers worker phase entry ∧ entry.id = id ∧
    entry.row.generation = generation

def SentAt (s : OutboxState) (id : ℕ) (generation : Option ℕ) : Prop :=
  ∃ x ∈ s.sends, x.row = id ∧ x.generation = generation

section CalmRuns

/-- Whether a claim is held, or was delivered. -/
def inUse (s : OutboxState) (id : ℕ) (generation : Option ℕ) : Bool :=
  (s.workers.any fun phase => phase.entry?.any fun entry =>
      entry.id == id && entry.row.generation == generation) ||
    s.sends.any fun x => x.row == id && x.generation == generation

/-- Whether a sweep meets a claim that outlived the stale threshold. -/
def outlivesThreshold (s : OutboxState) (now : ℕ) : Bool :=
  s.tables.ids.any fun id => (s.tables.rows id).any fun row =>
    isStale (now - OUTBOX_STALE_AFTER_MS) row && inUse s id row.generation

def calmEvent (s : OutboxState) : OutboxEvent → Bool
  | .settleThrows _ _ => false
  | .releaseStale now _ => !outlivesThreshold s now
  | _ => true

/-- The events of a calm run. -/
def calmStep (casing : Casing) (s : OutboxState) (e : OutboxEvent) : Option OutboxState :=
  if calmEvent s e then outboxStep casing s e else none

theorem inUse_of_held {id : ℕ} {generation : Option ℕ} (h : HeldAt s id generation) :
    inUse s id generation = true := by
  obtain ⟨worker, phase, entry, hholding, rfl, rfl⟩ := h
  simp only [inUse, Bool.or_eq_true, List.any_eq_true]
  exact .inl ⟨phase, List.mem_of_getElem? hholding.here, by simp [hholding.held]⟩

theorem inUse_of_sent {id : ℕ} {generation : Option ℕ} (h : SentAt s id generation) :
    inUse s id generation = true := by
  obtain ⟨x, hx, rfl, rfl⟩ := h
  simp only [inUse, Bool.or_eq_true, List.any_eq_true]
  exact .inr ⟨x, hx, by simp⟩

/-- In a calm run a sweep takes rows nobody holds and nobody delivered. -/
theorem unused_of_calm (hwf : Wf s.tables) {now stamp id : ℕ} {row : OutboxRow}
    (h : calmEvent s (.releaseStale now stamp) = true) (hrow : s.tables.rows id = some row)
    (hstale : isStale (now - OUTBOX_STALE_AFTER_MS) row = true) :
    inUse s id row.generation = false := by
  simp only [calmEvent, Bool.not_eq_true', outlivesThreshold, List.any_eq_false] at h
  have hid := h id (hwf.listed id row hrow)
  simpa [hrow, hstale] using hid

end CalmRuns

section Invariant

/-- What holds of the workers and the log in a calm run. -/
structure Calm (s : OutboxState) : Prop where
  wf : Wf s.tables
  held : ∀ worker phase entry, Holding s.workers worker phase entry → ∃ row,
    s.tables.rows entry.id = some row ∧ row.status = .sending ∧
      row.generation = entry.row.generation
  alone : ∀ worker worker' phase phase' entry entry', Holding s.workers worker phase entry →
    Holding s.workers worker' phase' entry' → entry.id = entry'.id → worker = worker'
  sent : ∀ x ∈ s.sends, ∃ row, s.tables.rows x.row = some row ∧
    (row.status.terminal = true ∨ row.status = .sending ∧ row.generation = x.generation ∧
      ∀ worker phase entry, Holding s.workers worker phase entry → entry.id = x.row →
        phase.handedOff = true)
  once : (s.sends.map (·.row)).Nodup

variable {entry : OutboxEntry} {worker : ℕ}

theorem holding_enter {worker' : ℕ} {phase phase' : Phase}
    (h : Holding (s.enter worker phase).workers worker' phase' entry) :
    worker' = worker ∧ phase' = phase ∨ worker' ≠ worker ∧ Holding s.workers worker' phase' entry := by
  have hget := h.here
  rw [enter_workers, List.getElem?_set] at hget
  split at hget
  · rename_i heq
    split at hget
    · exact .inl ⟨heq.symm, (Option.some.inj hget).symm⟩
    · contradiction
  · rename_i hne
    exact .inr ⟨fun heq => hne heq.symm, hget, h.held⟩

/-- A worker moves on with its row, or lets go of it. -/
theorem Calm.enter (h : Calm s) {phase₀ phase : Phase} (hphase : s.workers[worker]? = some phase₀)
    (hentry : phase.entry? = none ∨ phase.entry? = phase₀.entry? ∧
      (phase₀.handedOff = true → phase.handedOff = true)) : Calm (s.enter worker phase) := by
  -- Whoever holds a row afterwards held it before, and is as far with it.
  have hback : ∀ worker' phase' entry, Holding (s.enter worker phase).workers worker' phase' entry →
      ∃ phase'', Holding s.workers worker' phase'' entry ∧
        (phase''.handedOff = true → phase'.handedOff = true) := by
    intro worker' phase' entry hholding
    rcases holding_enter hholding with ⟨rfl, rfl⟩ | ⟨-, hold⟩
    · rcases hentry with hnone | ⟨hsame, hoff⟩
      · rw [hholding.held] at hnone
        contradiction
      · exact ⟨phase₀, ⟨hphase, hsame ▸ hholding.held⟩, hoff⟩
    · exact ⟨phase', hold, id⟩
  refine ⟨h.wf, ?_, ?_, ?_, h.once⟩
  · intro worker' phase' entry hholding
    obtain ⟨phase'', hold, -⟩ := hback _ _ _ hholding
    exact h.held worker' phase'' entry hold
  · intro a b phaseA phaseB entryA entryB ha hb hid
    obtain ⟨phaseA', ha', -⟩ := hback _ _ _ ha
    obtain ⟨phaseB', hb', -⟩ := hback _ _ _ hb
    exact h.alone a b phaseA' phaseB' entryA entryB ha' hb' hid
  · intro x hx
    obtain ⟨row, hrow, hterminal | ⟨hsending, hgeneration, hhands⟩⟩ := h.sent x hx
    · exact ⟨row, hrow, .inl hterminal⟩
    · refine ⟨row, hrow, .inr ⟨hsending, hgeneration, ?_⟩⟩
      intro worker' phase' entry hholding hid
      obtain ⟨phase'', hold, hoff⟩ := hback _ _ _ hholding
      exact hoff (hhands worker' phase'' entry hold hid)

/-- A write that leaves the held rows alone, and settles the delivered rows it
touches. -/
theorem Calm.rewrite (h : Calm s) {cause : Option Cause} {t' : OutboxTables}
    (hrewrites : Rewrites casing cause s.tables t')
    (hfree : ∀ id row row', s.tables.rows id = some row → t'.rows id = some row' → row' = row ∨
      row.status = .pending ∨ ¬HeldAt s id row.generation ∧
        (¬SentAt s id row.generation ∨ row'.status.terminal = true)) :
    Calm { s with tables := t' } := by
  refine ⟨h.wf.rewrites hrewrites, ?_, h.alone, ?_, h.once⟩
  · intro worker phase entry hholding
    have hheld : Holding s.workers worker phase entry := hholding
    obtain ⟨row, hrow, hsending, hgeneration⟩ := h.held worker phase entry hheld
    obtain ⟨row', hrow', -, -⟩ := hrewrites.old entry.id row hrow
    rcases hfree entry.id row row' hrow hrow' with rfl | hpending | ⟨hnot, -⟩
    · exact ⟨row', hrow', hsending, hgeneration⟩
    · rw [hsending] at hpending
      contradiction
    · exact absurd ⟨worker, phase, entry, hheld, rfl, hgeneration.symm⟩ hnot
  · intro x hx
    obtain ⟨row, hrow, hcase⟩ := h.sent x hx
    obtain ⟨row', hrow', -, -⟩ := hrewrites.old x.row row hrow
    rcases hcase with hterminal | ⟨hsending, hgeneration, hhands⟩
    · exact ⟨row, hrewrites.terminal hrow hterminal, .inl hterminal⟩
    · rcases hfree x.row row row' hrow hrow' with rfl | hpending | ⟨-, hunsent | hterminal⟩
      · exact ⟨row', hrow', .inr ⟨hsending, hgeneration, hhands⟩⟩
      · rw [hsending] at hpending
        contradiction
      · exact absurd ⟨x, hx, rfl, hgeneration.symm⟩ hunsent
      · exact ⟨row', hrow', .inl hterminal⟩

/-- Before its hand-off a held row was not delivered. -/
theorem Calm.unsent (h : Calm s) {phase : Phase} (hholding : Holding s.workers worker phase entry)
    (hoff : phase.handedOff = false) :
    ∀ x ∈ s.sends, x.row ≠ entry.id := by
  intro x hx hid
  obtain ⟨row, hrow, hsending, -⟩ := h.held worker phase entry hholding
  obtain ⟨other, hother, hcase⟩ := h.sent x hx
  have heq : row = other := Option.some.inj (hrow.symm.trans (hid ▸ hother))
  rcases hcase with hterminal | ⟨-, -, hhands⟩
  · rw [← heq, hsending] at hterminal
    contradiction
  · rw [hhands worker phase entry hholding hid.symm] at hoff
    contradiction

/-- A worker's last write to its row. After a delivery it settles the row. -/
theorem Calm.letGo (h : Calm s) {phase : Phase} {t' : OutboxTables}
    (hholding : Holding s.workers worker phase entry)
    (hrewrites : Rewrites casing (some (.worker entry)) s.tables t')
    (hsettled : phase.handedOff = true → ∀ row', t'.rows entry.id = some row' →
      row'.status.terminal = true) :
    Calm ({ s with tables := t' }.enter worker .idle) := by
  have hidle : Calm (s.enter worker .idle) := h.enter hholding.here (.inl rfl)
  refine hidle.rewrite hrewrites ?_
  intro id row row' hrow hrow'
  obtain ⟨next, hnext, -, heq | ⟨c, hc, hallows⟩⟩ := hrewrites.old id row hrow
  · exact .inl ((Option.some.inj (hrow'.symm.trans hnext)).trans heq)
  · cases hc
    obtain ⟨rfl, -, hgeneration, -, -⟩ := hallows
    refine .inr (.inr ⟨?_, ?_⟩)
    · -- Another holder of the row would have been this worker.
      rintro ⟨other, phase', entry', hother, hid, -⟩
      rcases holding_enter hother with ⟨-, rfl⟩ | ⟨hne, hbefore⟩
      · have hnone := hother.held
        contradiction
      · exact hne (h.alone _ _ _ _ _ _ hbefore hholding hid)
    · cases hoff : phase.handedOff with
      | true => exact .inr (hsettled hoff row' hrow')
      | false =>
        left
        rintro ⟨x, hx, hid, -⟩
        exact h.unsent hholding hoff x hx hid

/-- A worker writes its row and keeps it. -/
theorem Calm.touch (h : Calm s) {phase : Phase} {t' : OutboxTables}
    (hholding : Holding s.workers worker phase entry) (hoff : phase.handedOff = false)
    (hrewrites : Rewrites casing (some (.worker entry)) s.tables t')
    (hrow' : ∃ row', t'.rows entry.id = some row' ∧ row'.status = .sending ∧
      row'.generation = entry.row.generation) : Calm { s with tables := t' } := by
  have hother : ∀ id row, s.tables.rows id = some row → id ≠ entry.id → t'.rows id = some row := by
    intro id row hrow hne
    obtain ⟨row', hnext, -, rfl | ⟨c, hc, hallows⟩⟩ := hrewrites.old id row hrow
    · exact hnext
    · cases hc
      exact absurd hallows.1 hne
  refine ⟨h.wf.rewrites hrewrites, ?_, h.alone, ?_, h.once⟩
  · intro other phase' entry' hheld
    by_cases hid : entry'.id = entry.id
    · have hworker := h.alone _ _ _ _ _ _ hheld hholding hid
      subst hworker
      have hphase : phase' = phase := Option.some.inj (hheld.here.symm.trans hholding.here)
      subst hphase
      have hentry : entry' = entry := Option.some.inj (hheld.held.symm.trans hholding.held)
      exact hentry ▸ hrow'
    · obtain ⟨row, hrow, hcase⟩ := h.held other phase' entry' hheld
      exact ⟨row, hother _ row hrow hid, hcase⟩
  · intro x hx
    obtain ⟨row, hrow, hcase⟩ := h.sent x hx
    exact ⟨row, hother _ row hrow (h.unsent hholding hoff x hx), hcase⟩

/-- An idle worker takes a row that nobody holds and nobody delivered. -/
theorem Calm.take (h : Calm s) (hidle : s.workers[worker]? = some .idle)
    (hrow : s.tables.rows entry.id = some entry.row) (hsending : entry.row.status = .sending)
    (hnobody : ∀ worker' phase entry', Holding s.workers worker' phase entry' →
      entry'.id ≠ entry.id)
    (hunsent : ∀ x ∈ s.sends, x.row ≠ entry.id) : Calm (s.enter worker (.claimed entry)) := by
  have hcases : ∀ worker' phase entry',
      Holding (s.enter worker (.claimed entry)).workers worker' phase entry' →
        worker' = worker ∧ entry' = entry ∨
          worker' ≠ worker ∧ Holding s.workers worker' phase entry' := by
    intro worker' phase entry' hholding
    rcases holding_enter hholding with ⟨rfl, rfl⟩ | hold
    · exact .inl ⟨rfl, (Option.some.inj hholding.held).symm⟩
    · exact .inr hold
  refine ⟨h.wf, ?_, ?_, ?_, h.once⟩
  · intro worker' phase entry' hholding
    rcases hcases _ _ _ hholding with ⟨-, rfl⟩ | ⟨-, hold⟩
    · exact ⟨_, hrow, hsending, rfl⟩
    · exact h.held worker' phase entry' hold
  · intro a b phaseA phaseB entryA entryB ha hb hid
    rcases hcases _ _ _ ha with ⟨rfl, rfl⟩ | ⟨-, hA⟩ <;>
      rcases hcases _ _ _ hb with ⟨rfl, rfl⟩ | ⟨-, hB⟩
    · rfl
    · exact absurd hid.symm (hnobody _ _ _ hB)
    · exact absurd hid (hnobody _ _ _ hA)
    · exact h.alone a b phaseA phaseB entryA entryB hA hB hid
  · intro x hx
    obtain ⟨row, hrow', hterminal | ⟨hrest, hgeneration, hhands⟩⟩ := h.sent x hx
    · exact ⟨row, hrow', .inl hterminal⟩
    · refine ⟨row, hrow', .inr ⟨hrest, hgeneration, ?_⟩⟩
      intro worker' phase entry' hholding hid
      rcases hcases _ _ _ hholding with ⟨-, rfl⟩ | ⟨-, hold⟩
      · exact absurd hid.symm (hunsent x hx)
      · exact hhands worker' phase entry' hold hid

/-- A successful send of a held row. -/
theorem Calm.deliver (h : Calm s) (hready : s.workers[worker]? = some (.ready entry)) :
    Calm ({ s with sends := ⟨entry.id, entry.row.generation, entry.row.to_email⟩ :: s.sends }.enter
      worker (.delivered entry)) := by
  have hholding : Holding s.workers worker (.ready entry) entry := ⟨hready, rfl⟩
  have hunsent := h.unsent hholding rfl
  obtain ⟨row, hrow, hsending, hgeneration⟩ := h.held _ _ _ hholding
  have henter : Calm (s.enter worker (.delivered entry)) :=
    h.enter hready (.inr ⟨rfl, fun _ => rfl⟩)
  refine ⟨h.wf, henter.held, henter.alone, ?_, ?_⟩
  · intro x hx
    rcases List.mem_cons.mp hx with rfl | hold
    · refine ⟨row, hrow, .inr ⟨hsending, hgeneration, ?_⟩⟩
      intro worker' phase entry' hother hid
      rcases holding_enter hother with ⟨-, rfl⟩ | ⟨hne, hbefore⟩
      · rfl
      · exact absurd (h.alone _ _ _ _ _ _ hbefore hholding hid) hne
    · exact henter.sent x hold
  · simp only [enter_sends, List.map_cons, List.nodup_cons]
    refine ⟨?_, h.once⟩
    intro hmem
    obtain ⟨x, hx, hid⟩ := List.mem_map.mp hmem
    exact hunsent x hx hid

end Invariant

section Steps

variable {at_ jitter now stamp worker : ℕ}

/-- A settling write after a hand-off settles the row it finds at its claim. -/
theorem terminal_settleWrite {t : OutboxTables} {phase : Phase} {entry : OutboxEntry}
    {row : OutboxRow} (hentry : phase.entry? = some entry) (hoff : phase.handedOff = true)
    (hrow : t.rows entry.id = some row) (hsending : row.status = .sending)
    (hgeneration : row.generation = entry.row.generation) :
    ∀ row', (settleWrite now jitter phase t).rows entry.id = some row' →
      row'.status.terminal = true := by
  have hwrite : ∀ f : OutboxRow → OutboxRow, (f row).status.terminal = true → ∀ row',
      (whileSending entry f t).2.rows entry.id = some row' → row'.status.terminal = true := by
    intro f hterminal row' hrow'
    simp only [whileSending, hrow, hgeneration, hsending, and_self, if_true,
      Function.update_self, Option.some.injEq] at hrow'
    exact hrow' ▸ hterminal
  cases phase <;> cases hentry
  case unacknowledged message => exact hwrite _ rfl
  case delivered => exact hwrite _ rfl
  all_goals contradiction

/-- An authorized claim is still sending at its generation. -/
theorem authorize_allowed {t : OutboxTables} {entry : OutboxEntry}
    (h : (authorize casing entry at_ stamp t).1 = some true) : ∃ row',
      (authorize casing entry at_ stamp t).2.rows entry.id = some row' ∧
        row'.status = .sending ∧ row'.generation = entry.row.generation := by
  simp only [authorize] at h ⊢
  split at h
  · contradiction
  rename_i row hrow
  split at h
  · contradiction
  rename_i hclaim
  split at h
  · split at h
    · simp at h
    · simp at h
  rename_i heligible
  simp only [not_or, not_not] at hclaim
  simp [hrow, hclaim, heligible, beginDelivery, whileSending]

theorem calm_claim (h : Calm s) (hs' : claimStep casing worker now stamp s = some s') :
    Calm s' := by
  simp only [claimStep] at hs'
  split at hs'
  · rename_i hidle
    have hrewrites : Rewrites casing (some .claim) s.tables _ :=
      rewrites_claimDue now stamp s.tables
    have htables : Calm { s with tables := (claimDue casing now 1 stamp s.tables).2 } := by
      refine h.rewrite hrewrites ?_
      intro id row row' hrow hrow'
      obtain ⟨next, hnext, -, heq | ⟨c, hc, hallows⟩⟩ := hrewrites.old id row hrow
      · exact .inl ((Option.some.inj (hrow'.symm.trans hnext)).trans heq)
      · cases hc
        exact .inr (.inl hallows.1)
    rcases hclaimed : (claimDue casing now 1 stamp s.tables).1.head? with _ | entry
    · rw [hclaimed] at hs'
      cases hs'
      exact htables.enter hidle (.inl rfl)
    · rw [hclaimed] at hs'
      cases hs'
      obtain ⟨⟨row, hrow, hpending⟩, hafter, hsending⟩ := claimDue_claimed hclaimed
      refine htables.take hidle hafter hsending ?_ ?_
      · intro worker' phase entry' hholding hid
        obtain ⟨other, hother, hstatus, -⟩ := h.held worker' phase entry' hholding
        have heq : row = other := Option.some.inj (hrow.symm.trans (hid ▸ hother))
        rw [← heq, hpending] at hstatus
        contradiction
      · intro x hx hid
        obtain ⟨other, hother, hcase⟩ := h.sent x hx
        have heq : row = other := Option.some.inj (hrow.symm.trans (hid ▸ hother))
        rcases hcase with hterminal | ⟨hstatus, -⟩
        · rw [← heq, hpending] at hterminal
          contradiction
        · rw [← heq, hpending] at hstatus
          contradiction
  · contradiction

theorem calm_authorize (h : Calm s) (hs' : authorizeStep casing worker at_ stamp s = some s') :
    Calm s' := by
  simp only [authorizeStep] at hs'
  split at hs'
  · rename_i entry hclaimed
    have hholding : Holding s.workers worker (.claimed entry) entry := ⟨hclaimed, rfl⟩
    have hrewrites : Rewrites casing (some (.worker entry)) s.tables _ :=
      rewrites_authorize entry at_ stamp
    cases hs'
    split
    · rename_i hallowed
      exact (h.touch hholding rfl hrewrites (authorize_allowed hallowed)).enter hclaimed
        (.inr ⟨rfl, by simp [Phase.handedOff]⟩)
    · exact h.letGo hholding hrewrites (by simp [Phase.handedOff])
  · contradiction

theorem calm_settle (h : Calm s) (hs' : settleStep worker now jitter s = some s') : Calm s' := by
  simp only [settleStep] at hs'
  split at hs'
  · rename_i phase hphase
    split at hs'
    · rename_i hsettles
      cases hs'
      rcases hentry : phase.entry? with _ | entry
      · cases phase <;> simp_all [Phase.entry?, Phase.settles]
      · have hholding : Holding s.workers worker phase entry := ⟨hphase, hentry⟩
        obtain ⟨row, hrow, hsending, hgeneration⟩ := h.held worker phase entry hholding
        have hrewrites : Rewrites ⟨id, id⟩ (some (.worker entry)) s.tables _ :=
          rewrites_settleWrite now jitter hentry
        refine h.letGo hholding hrewrites ?_
        intro hoff
        exact terminal_settleWrite hentry hoff hrow hsending hgeneration
    · contradiction
  · contradiction

theorem calm_calmStep (s : OutboxState) (e : OutboxEvent) (s' : OutboxState) (h : Calm s)
    (hs' : calmStep casing s e = some s') : Calm s' := by
  simp only [calmStep] at hs'
  split at hs'
  swap
  · contradiction
  rename_i hcalm
  have hrewrites := outboxStep_rewrites h.wf hs'
  -- An event outside the workers rewrites pending rows, or stale ones nobody uses.
  have houtside : ∀ t', Rewrites casing (causeOf casing s e) s.tables t' →
      (∀ c, causeOf casing s e = some c → ∀ id row row', s.tables.rows id = some row →
        c.Allows casing s.tables.fresh t'.fresh id row row' →
          row.status = .pending ∨ inUse s id row.generation = false) →
      Calm { s with tables := t' } := by
    intro t' hr hfree
    refine h.rewrite hr ?_
    intro id row row' hrow hrow'
    obtain ⟨next, hnext, -, heq | ⟨c, hc, hallows⟩⟩ := hr.old id row hrow
    · exact .inl ((Option.some.inj (hrow'.symm.trans hnext)).trans heq)
    · rcases hfree c hc id row next hrow hallows with hpending | hunused
      · exact .inr (.inl hpending)
      · refine .inr (.inr ⟨?_, .inl ?_⟩)
        · exact fun hheld => by simp [inUse_of_held hheld] at hunused
        · exact fun hsent => by simp [inUse_of_sent hsent] at hunused
  cases e with
  | enqueue input now =>
    cases hs'
    exact houtside _ hrewrites (by simp [causeOf])
  | claim worker now stamp => exact calm_claim h hs'
  | authorize worker at_ stamp => exact calm_authorize h hs'
  | checkDeadline worker now =>
    simp only [outboxStep, checkDeadlineStep] at hs'
    split at hs'
    · rename_i hphase
      cases hs'
      refine h.enter hphase (.inr ?_)
      split <;> exact ⟨rfl, by simp [Phase.handedOff]⟩
    · contradiction
  | openContent worker error =>
    simp only [outboxStep, openContentStep] at hs'
    split at hs'
    · rename_i hphase
      cases hs'
      refine h.enter hphase (.inr ?_)
      cases error <;> exact ⟨rfl, by simp [Phase.handedOff]⟩
    · contradiction
  | send worker outcome =>
    simp only [outboxStep, sendStep] at hs'
    split at hs'
    · rename_i hphase
      cases hs'
      cases outcome with
      | delivered => exact h.deliver hphase
      | unacknowledged message => exact h.enter hphase (.inr ⟨rfl, fun _ => rfl⟩)
      | refused message => exact h.enter hphase (.inr ⟨rfl, by simp [Phase.handedOff]⟩)
    · contradiction
  | settle worker now jitter => exact calm_settle h hs'
  | settleThrows worker message => simp [calmEvent] at hcalm
  | crash worker =>
    simp only [outboxStep, crashStep] at hs'
    split at hs'
    · rename_i hphase
      cases hs'
      exact h.enter hphase (.inl rfl)
    · contradiction
  | releaseStale now stamp =>
    cases hs'
    refine houtside _ hrewrites ?_
    rintro c ⟨⟩ id row row' hrow hallows
    exact .inr (unused_of_calm h.wf hcalm hrow hallows.1)
  | releaseAddress userId expectedEmail stamp =>
    obtain ⟨t, -, rfl⟩ := Option.map_eq_some_iff.mp hs'
    refine houtside t hrewrites ?_
    rintro c ⟨⟩ id row row' - hallows
    exact .inl hallows.2.1
  | register email =>
    obtain ⟨t, -, rfl⟩ := Option.map_eq_some_iff.mp hs'
    exact houtside t hrewrites (by simp [causeOf])

end Steps

section Release

/-- Where a run starts: every worker idle and nothing sent yet. -/
structure Starting (s : OutboxState) : Prop where
  wf : Wf s.tables
  idle : ∀ phase ∈ s.workers, phase = .idle
  unsent : s.sends = []

theorem Starting.calm (h : Starting s) : Calm s := by
  have hnobody : ∀ worker phase entry, ¬Holding s.workers worker phase entry := by
    intro worker phase entry hholding
    have hidle := h.idle phase (List.mem_of_getElem? hholding.here)
    have hheld := hholding.held
    rw [hidle] at hheld
    contradiction
  refine ⟨h.wf, ?_, ?_, by simp [h.unsent], by simp [h.unsent]⟩
  · exact fun worker phase entry hholding => absurd hholding (hnobody _ _ _)
  · exact fun worker _ phase _ entry _ hholding => absurd hholding (hnobody _ _ _)

theorem starting_emptyOutbox (n : ℕ) : Starting (emptyOutbox n) :=
  ⟨wf_emptyOutbox n, fun _ hmem => List.eq_of_mem_replicate hmem, rfl⟩

/-- After a release no row to the address is left to deliver. -/
theorem releaseAddress_settles {t t' : OutboxTables} (hwf : Wf t) {userId stamp : ℕ}
    {expectedEmail : String} (h : releaseAddress casing userId expectedEmail stamp t = some t') :
    (∃ email, t'.users userId = some email ∧ endsReleased email = true) ∧
      ∀ id row, t'.rows id = some row →
        addressedTo casing (normalizeEmail casing (normalizeEmail casing expectedEmail)) row = true →
          row.status.terminal = true := by
  simp only [releaseAddress] at h
  split at h
  · contradiction
  split at h
  · contradiction
  simp only [cancelForReleasedAddress] at h
  split at h
  · contradiction
  rename_i hsending
  cases h
  refine ⟨⟨_, Function.update_self .., endsReleased_tombstone _⟩, ?_⟩
  intro id row' hrow' haddressed
  obtain ⟨row, hrow, heq⟩ := Option.map_eq_some_iff.mp hrow'
  simp only [Bool.not_eq_true, List.any_eq_false] at hsending
  have hnot := hsending id (hwf.listed id row hrow)
  simp only [hrow, Option.any_some] at hnot
  split at heq
  · subst heq
    rfl
  · rename_i hpending
    subst heq
    cases hstatus : row.status <;> simp_all [OutboxStatus.terminal]

/-- A log grows only by a send of a held row, which changes no table. -/
theorem sends_outboxStep {e : OutboxEvent} (h : outboxStep casing s e = some s') :
    s'.sends = s.sends ∨ ∃ (worker : ℕ) (entry : OutboxEntry),
      s.workers[worker]? = some (Phase.ready entry) ∧
      s'.tables = s.tables ∧
        s'.sends = ⟨entry.id, entry.row.generation, entry.row.to_email⟩ :: s.sends := by
  cases e with
  | send worker outcome =>
    simp only [outboxStep, sendStep] at h
    split at h
    · rename_i entry hready
      cases h
      cases outcome with
      | delivered => exact .inr ⟨worker, entry, hready, rfl, rfl⟩
      | unacknowledged message => exact .inl rfl
      | refused message => exact .inl rfl
    · contradiction
  | enqueue input now => cases h; exact .inl rfl
  | releaseStale now stamp => cases h; exact .inl rfl
  | releaseAddress userId expectedEmail stamp =>
    obtain ⟨t, -, rfl⟩ := Option.map_eq_some_iff.mp h
    exact .inl rfl
  | register email =>
    obtain ⟨t, -, rfl⟩ := Option.map_eq_some_iff.mp h
    exact .inl rfl
  | claim worker now stamp =>
    simp only [outboxStep, claimStep] at h
    split at h
    · cases h; exact .inl rfl
    · contradiction
  | authorize worker at_ stamp =>
    simp only [outboxStep, authorizeStep] at h
    split at h
    · cases h; exact .inl rfl
    · contradiction
  | checkDeadline worker now =>
    simp only [outboxStep, checkDeadlineStep] at h
    split at h
    · cases h; exact .inl rfl
    · contradiction
  | openContent worker error =>
    simp only [outboxStep, openContentStep] at h
    split at h
    · cases h; exact .inl rfl
    · contradiction
  | settle worker now jitter =>
    simp only [outboxStep, settleStep] at h
    split at h
    · split at h
      · cases h; exact .inl rfl
      · contradiction
    · contradiction
  | settleThrows worker message =>
    simp only [outboxStep, settleThrowsStep] at h
    split at h
    · cases h; exact .inl rfl
    · split at h
      · cases h; exact .inl rfl
      · contradiction
    · contradiction
  | crash worker =>
    simp only [outboxStep, crashStep] at h
    split at h
    · cases h; exact .inl rfl
    · contradiction

/-- The rows a release in `r` bars: those it found under the address, and those
bound to the account since. -/
def Barred (casing : Casing) (r : OutboxState) (userId : ℕ) (address : String) (s : OutboxState)
    (id : ℕ) : Prop :=
  (∃ row, r.tables.rows id = some row ∧ addressedTo casing address row = true) ∨
    r.tables.rows id = none ∧
      ∃ row, s.tables.rows id = some row ∧ row.recipient_user_id = some userId

/-- What holds in a calm run from the release in `r` on. -/
structure Since (casing : Casing) (r : OutboxState) (userId : ℕ) (address : String)
    (s : OutboxState) : Prop where
  calm : Calm s
  released : ∃ email, s.tables.users userId = some email ∧ endsReleased email = true
  barred : ∀ id, Barred casing r userId address s id →
    ∃ row, s.tables.rows id = some row ∧ row.status.terminal = true
  sends : ∀ x ∈ s.sends, Barred casing r userId address s x.row → x ∈ r.sends

/-- A message bound to an account without its address is stored as failed. -/
theorem failed_enqueuedRow {users : ℕ → Option String} {input : EnqueueEmailInput} {now userId : ℕ}
    {email : String} (hemail : users userId = some email) (hreleased : endsReleased email = true)
    (hbound : (enqueuedRow casing users input now).recipient_user_id = some userId) :
    (enqueuedRow casing users input now).status.terminal = true := by
  have hrecipient : input.recipient_user_id = some userId := hbound
  have hlock : lockEmailRecipient casing users userId input.to_email = false := by
    simp only [lockEmailRecipient, isReleasedEmail, hemail, Bool.and_eq_false_iff,
      Bool.not_eq_false', beq_eq_false_iff_ne, ne_eq, Option.some.injEq]
    by_cases heq : email = normalizeEmail casing input.to_email
    · exact .inl (heq ▸ hreleased)
    · exact .inr heq
  simp [enqueuedRow, hrecipient, hlock, OutboxStatus.terminal]

theorem since_calmStep {r : OutboxState} {userId : ℕ} {address : String} (s : OutboxState)
    (e : OutboxEvent) (s' : OutboxState) (h : Since casing r userId address s)
    (hs' : calmStep casing s e = some s') : Since casing r userId address s' := by
  have hcalm' := calm_calmStep s e s' h.calm hs'
  simp only [calmStep] at hs'
  split at hs'
  swap
  · contradiction
  have hrewrites := outboxStep_rewrites h.calm.wf hs'
  obtain ⟨email, hemail, hreleased⟩ := h.released
  have hback : ∀ id row, s.tables.rows id = some row → Barred casing r userId address s' id →
      Barred casing r userId address s id := by
    rintro id row hrow (hfound | ⟨hnone, row', hrow', hbound⟩)
    · exact .inl hfound
    · obtain ⟨next, hnext, hmail, -⟩ := hrewrites.old id row hrow
      have heq : next = row' := Option.some.inj (hnext.symm.trans hrow')
      subst heq
      exact .inr ⟨hnone, row, hrow, hmail.recipient ▸ hbound⟩
  refine ⟨hcalm', ?_, ?_, ?_⟩
  · rcases hrewrites.users userId with heq | ⟨email', hemail', ⟨-, hends⟩ | ⟨hfresh, -⟩⟩
    · exact ⟨email, heq.trans hemail, hreleased⟩
    · exact ⟨email', hemail', hends⟩
    · have := h.calm.wf.users userId email hemail
      omega
  · intro id hbarred
    rcases hrow : s.tables.rows id with _ | row
    · rcases hbarred with hfound | ⟨-, row', hrow', hbound⟩
      · obtain ⟨row, hold, -⟩ := h.barred id (.inl hfound)
        rw [hrow] at hold
        contradiction
      · obtain ⟨-, -, input, now, rfl⟩ := hrewrites.new id row' hrow' hrow
        exact ⟨_, hrow', failed_enqueuedRow hemail hreleased hbound⟩
    · obtain ⟨old, hold, hterminal⟩ := h.barred id (hback id row hrow hbarred)
      exact ⟨old, hrewrites.terminal hold hterminal, hterminal⟩
  · intro x hx hbarred
    rcases sends_outboxStep hs' with hsame | ⟨worker, entry, hready, htables, hsends⟩
    · rw [hsame] at hx
      obtain ⟨row, hrow, -⟩ := h.calm.sent x hx
      exact h.sends x hx (hback _ row hrow hbarred)
    · rw [hsends] at hx
      rcases List.mem_cons.mp hx with rfl | hold
      · -- The row of a new send is still sending, and a barred row is settled.
        obtain ⟨row, hrow, hsending, -⟩ := h.calm.held worker _ entry ⟨hready, rfl⟩
        obtain ⟨old, hold, hterminal⟩ := h.barred _ (hback _ row hrow hbarred)
        have heq : row = old := Option.some.inj (hrow.symm.trans hold)
        rw [← heq, hsending] at hterminal
        contradiction
      · obtain ⟨row, hrow, -⟩ := h.calm.sent x hold
        exact h.sends x hold (hback _ row hrow hbarred)

theorem since_release {r : OutboxState} {userId stamp : ℕ} {expectedEmail : String} (h : Calm s)
    (hr : calmStep casing s (.releaseAddress userId expectedEmail stamp) = some r) :
    Since casing r userId (normalizeEmail casing (normalizeEmail casing expectedEmail)) r := by
  have hcalm := calm_calmStep s _ r h hr
  simp only [calmStep, calmEvent, if_true, outboxStep] at hr
  obtain ⟨t, ht, rfl⟩ := Option.map_eq_some_iff.mp hr
  obtain ⟨hreleased, hsettled⟩ := releaseAddress_settles h.wf ht
  refine ⟨hcalm, hreleased, ?_, fun x hx _ => hx⟩
  rintro id (⟨row, hrow, haddressed⟩ | ⟨hnone, row, hrow, -⟩)
  · exact ⟨row, hrow, hsettled id row hrow haddressed⟩
  · rw [hnone] at hrow
    contradiction

end Release

section Runs

/-- Whether an event is a write of a worker to the row it claimed. -/
def OutboxEvent.worker? : OutboxEvent → Option ℕ
  | .authorize worker _ _ => some worker
  | .settle worker _ _ => some worker
  | _ => none

theorem wf_of_leads (hwf : Wf s.tables) (h : Leads (outboxStep casing) s s') : Wf s'.tables :=
  h.invariant (I := fun s => Wf s.tables)
    (fun _ _ _ hwf hs' => hwf.rewrites (outboxStep_rewrites hwf hs')) hwf

theorem terminal_of_leads (hwf : Wf s.tables) (h : Leads (outboxStep casing) s s') {id : ℕ}
    {row : OutboxRow} (hrow : s.tables.rows id = some row) (hterminal : row.status.terminal = true) :
    s'.tables.rows id = some row := by
  have hboth := h.invariant (I := fun s => Wf s.tables ∧ s.tables.rows id = some row)
    (fun _ _ _ hs hs' =>
      have hrewrites := outboxStep_rewrites hs.1 hs'
      ⟨hs.1.rewrites hrewrites, hrewrites.terminal hs.2 hterminal⟩) ⟨hwf, hrow⟩
  exact hboth.2

/-- A change of status or attempts has a cause that allows it; a worker's own
is to the row it claimed, while it is sending at that generation. -/
theorem fenced_writes (hwf : Wf s.tables) {e : OutboxEvent} (hs' : outboxStep casing s e = some s')
    {id : ℕ} {row row' : OutboxRow} (hrow : s.tables.rows id = some row)
    (hrow' : s'.tables.rows id = some row')
    (hchange : row'.status ≠ row.status ∨ row'.attempts ≠ row.attempts) :
    ∃ c, causeOf casing s e = some c ∧
      c.Allows casing s.tables.fresh s'.tables.fresh id row row' ∧
        ∀ worker, e.worker? = some worker → ∃ phase entry,
          Holding s.workers worker phase entry ∧ id = entry.id ∧ row.status = .sending ∧
            row.generation = entry.row.generation := by
  obtain ⟨next, hnext, -, rfl | ⟨c, hc, hallows⟩⟩ :=
    (outboxStep_rewrites hwf hs').old id row hrow
  · rw [hrow', Option.some.injEq] at hnext
    simp [hnext] at hchange
  · have heq : next = row' := Option.some.inj (hnext.symm.trans hrow')
    subst heq
    refine ⟨c, hc, hallows, ?_⟩
    intro worker hworker
    have hholder : (s.workers[worker]?.bind Phase.entry?).map .worker = some c := by
      cases e <;> cases hworker <;> exact hc
    obtain ⟨entry, hentry, rfl⟩ := Option.map_eq_some_iff.mp hholder
    obtain ⟨phase, hphase, hheld⟩ := Option.bind_eq_some_iff.mp hentry
    exact ⟨phase, entry, ⟨hphase, hheld⟩, hallows.1, hallows.2.1, hallows.2.2.1⟩

/-- Outbox delivery, over every interleaving: writes are fenced and settled
rows stay settled; in a calm run each row is delivered at most once, and a row
that an address release bars is not delivered after it. -/
theorem outbox_delivery (casing : Casing) {s₀ : OutboxState} (h₀ : Starting s₀) :
    (∀ s, Leads (outboxStep casing) s₀ s →
      (∀ e s' id row row', outboxStep casing s e = some s' → s.tables.rows id = some row →
        s'.tables.rows id = some row' →
          row'.status ≠ row.status ∨ row'.attempts ≠ row.attempts →
          ∃ c, causeOf casing s e = some c ∧
            c.Allows casing s.tables.fresh s'.tables.fresh id row row' ∧
              ∀ worker, e.worker? = some worker → ∃ phase entry,
                Holding s.workers worker phase entry ∧ id = entry.id ∧ row.status = .sending ∧
                  row.generation = entry.row.generation) ∧
      ∀ s', Leads (outboxStep casing) s s' → ∀ id row, s.tables.rows id = some row →
        row.status.terminal = true → s'.tables.rows id = some row) ∧
    ∀ s, Leads (calmStep casing) s₀ s → (s.sends.map (·.row)).Nodup ∧
      ∀ userId expectedEmail stamp r s',
        calmStep casing s (.releaseAddress userId expectedEmail stamp) = some r →
        Leads (calmStep casing) r s' → ∀ x ∈ s'.sends,
          Barred casing r userId (normalizeEmail casing (normalizeEmail casing expectedEmail)) s'
            x.row → x ∈ r.sends := by
  refine ⟨?_, ?_⟩
  · intro s hs
    have hwf := wf_of_leads h₀.wf hs
    refine ⟨?_, ?_⟩
    · intro e s' id row row' hs' hrow hrow' hchange
      exact fenced_writes hwf hs' hrow hrow' hchange
    · intro s' hs' id row hrow hterminal
      exact terminal_of_leads hwf hs' hrow hterminal
  · intro s hs
    have hcalm : Calm s := hs.invariant calm_calmStep h₀.calm
    refine ⟨hcalm.once, ?_⟩
    intro userId expectedEmail stamp r s' hr hs' x hx hbarred
    have hsince := hs'.invariant since_calmStep (since_release hcalm hr)
    exact hsince.sends x hx hbarred

/-- A casing for addresses in lower case. -/
def lowerCase : Casing := ⟨id, id⟩

/-- One worker delivers the next row due. -/
def oneDelivery : List OutboxEvent :=
  [.claim 0 10 10, .authorize 0 10 10, .checkDeadline 0 11, .openContent 0 none,
    .send 0 .delivered, .settle 0 12 0]

/-- Mail to an account, in time and after its address was released. -/
def releasedRun : List OutboxEvent :=
  [.register "ada@x.org", .enqueue ⟨"ada@x.org", 0, some 0, none, none⟩ 1] ++ oneDelivery ++
    [.enqueue ⟨"ada@x.org", 0, some 0, none, none⟩ 20]

theorem outbox_delivery_released :
    ∃ r s', Leads (calmStep lowerCase) (emptyOutbox 2) r ∧ Leads (calmStep lowerCase) r s' ∧
      r.sends.map (·.row) = [1] ∧ s'.sends.map (·.row) = [1] ∧
      (s'.tables.rows 3).map (·.status) = some .failed ∧
      ∀ x ∈ s'.sends, Barred lowerCase r 0 "ada@x.org" s' x.row → x ∈ r.sends := by
  obtain ⟨s, hs, hcheck⟩ := (Option.any_eq_true
    (fun s => (calmStep lowerCase s (.releaseAddress 0 "ada@x.org" 30)).any fun r =>
      r.sends.map (·.row) == [1] &&
        (replay (calmStep lowerCase) [.claim 1 40 40] r).any fun s' =>
          s'.sends.map (·.row) == [1] && (s'.tables.rows 3).map (·.status) == some .failed)
    (replay (calmStep lowerCase) releasedRun (emptyOutbox 2))).mp (by decide +kernel)
  obtain ⟨r, hr, hrest⟩ := (Option.any_eq_true _ _).mp hcheck
  rw [Bool.and_eq_true] at hrest
  obtain ⟨s', hs', hend⟩ := (Option.any_eq_true _ _).mp hrest.2
  rw [Bool.and_eq_true] at hend
  have hleads : Leads (calmStep lowerCase) (emptyOutbox 2) s := ⟨releasedRun, hs⟩
  have hafter : Leads (calmStep lowerCase) r s' := ⟨_, hs'⟩
  have h := ((outbox_delivery lowerCase (starting_emptyOutbox 2)).2 s hleads).2 0
    "ada@x.org" 30 r s' hr hafter
  have hnormal : normalizeEmail lowerCase (normalizeEmail lowerCase "ada@x.org") = "ada@x.org" := by
    decide +kernel
  rw [hnormal] at h
  exact ⟨r, s', hleads.trans (.head hr (.refl r)), hafter, by simpa using hrest.1,
    by simpa using hend.1, by simpa using hend.2, h⟩

/-- An address is released so that another account may have it: mail to that
account is sent to the released address. -/
theorem released_address_reused :
    ∃ s r s', Leads (calmStep lowerCase) (emptyOutbox 1) s ∧
      calmStep lowerCase s (.releaseAddress 0 "ada@x.org" 30) = some r ∧
      Leads (calmStep lowerCase) r s' ∧ ∃ x ∈ s'.sends, x ∉ r.sends ∧
        (s'.tables.rows x.row).any (addressedTo lowerCase "ada@x.org") = true := by
  obtain ⟨s, hs, hcheck⟩ := (Option.any_eq_true
    (fun s => (calmStep lowerCase s (.releaseAddress 0 "ada@x.org" 30)).any fun r =>
      (replay (calmStep lowerCase)
        ([.register "ada@x.org", .enqueue ⟨"ada@x.org", 0, some 3, none, none⟩ 5] ++ oneDelivery)
          r).any fun s' => s'.sends.any fun x => !r.sends.contains x &&
            (s'.tables.rows x.row).any (addressedTo lowerCase "ada@x.org"))
    (replay (calmStep lowerCase) [.register "ada@x.org"] (emptyOutbox 1))).mp (by decide +kernel)
  obtain ⟨r, hr, hrest⟩ := (Option.any_eq_true _ _).mp hcheck
  obtain ⟨s', hs', hend⟩ := (Option.any_eq_true _ _).mp hrest
  obtain ⟨x, hx, hsent⟩ := List.any_eq_true.mp hend
  simp only [Bool.and_eq_true, Bool.not_eq_true', List.contains_eq_mem,
    decide_eq_false_iff_not] at hsent
  exact ⟨s, r, s', ⟨_, hs⟩, hr, ⟨_, hs'⟩, x, hx, hsent.1, hsent.2⟩

end Runs

end FerrumNexus.Outbox
