import FerrumNexus.Access.RequestAdmission

/-!
# The rolling request budget

No window of twenty-four hours holds more charges of an account than its limit,
in any state of any run. The count and the charge stand at different times, so
the argument is about the charge: whatever window it falls into began no earlier
than the one that was counted, and under the account's budget lease no other
charge of that account commits in between.
-/
namespace FerrumNexus.Access.Budget

open Saga Platform Portal

variable {limit : ℕ} {isolation : Isolation} {d d' : RequestTables}

/-! ## Charges -/

def AuditRecord.isCharge (row : AuditRecord) : Bool :=
  row.action == .accessRequest || row.action == .accessToolsRequest

namespace RequestTables

def chargeRows (d : RequestTables) : List AuditRecord := d.audits.filter AuditRecord.isCharge

/-- The charges of one account. -/
def charges (d : RequestTables) (u : ℕ) : List AuditRecord :=
  d.chargeRows.filter fun row => row.actorUserId = some u

/-- How many of them are stamped from a time on. -/
def chargedSince (d : RequestTables) (u since : ℕ) : ℕ :=
  (d.charges u).countP fun row => since ≤ row.createdAt

/-- How many of them are stamped within the window from `start` on, whose ends
count. -/
def chargedWithin (d : RequestTables) (u start : ℕ) : ℕ :=
  (d.charges u).countP fun row =>
    start ≤ row.createdAt ∧ row.createdAt ≤ start + ACCESS_REQUEST_BUDGET_WINDOW_MS

end RequestTables

/-- The two queries count the charges between them. -/
theorem countAudits_add {d₁ d₂ : RequestTables} {u since : ℕ}
    (h : d₁.charges u = d₂.charges u) :
    d₁.countAudits u .accessRequest since + d₂.countAudits u .accessToolsRequest since =
      d₂.chargedSince u since := by
  have hcount (d : RequestTables) (action : AuditAction)
      (haction : ∀ row : AuditRecord, row.action = action → row.isCharge = true) :
      d.countAudits u action since =
        (d.charges u).countP fun row => row.action = action ∧ since ≤ row.createdAt := by
    rw [RequestTables.countAudits, RequestTables.charges, RequestTables.chargeRows, List.filter_filter,
      List.countP_filter, ← List.countP_eq_length_filter]
    apply List.countP_congr
    intro row _
    have hcharge := haction row
    simp only [decide_eq_true_eq, Bool.and_eq_true]
    tauto
  have hrequest : ∀ row : AuditRecord, row.action = .accessRequest → row.isCharge = true := by
    intro row hrow
    simp [AuditRecord.isCharge, hrow]
  have htools : ∀ row : AuditRecord, row.action = .accessToolsRequest → row.isCharge = true := by
    intro row hrow
    simp [AuditRecord.isCharge, hrow]
  have hcharges : ∀ row ∈ d₂.charges u, row.isCharge = true := by
    intro row hrow
    exact (List.mem_filter.mp (List.mem_filter.mp hrow).1).2
  rw [hcount d₁ _ hrequest, hcount d₂ _ htools, h, RequestTables.chargedSince]
  generalize d₂.charges u = rows at hcharges ⊢
  induction rows with
  | nil => rfl
  | cons row rest ih =>
    obtain ⟨hrow, hrest⟩ := List.forall_mem_cons.mp hcharges
    have hsum := ih hrest
    simp only [List.countP_cons]
    have hkind : row.action = .accessRequest ∨ row.action = .accessToolsRequest := by
      simpa [AuditRecord.isCharge] using hrow
    rcases hkind with hkind | hkind
    · simp only [hkind, true_and, reduceCtorEq, false_and, decide_false, Bool.false_eq_true, if_false]
      omega
    · simp only [hkind, true_and, reduceCtorEq, false_and, decide_false, Bool.false_eq_true, if_false]
      omega

/-! ## What a commit may do -/

/-- The holder of a budget key is spared other charges of the account. -/
def budgetDiscipline : Discipline RequestKey RequestTables where
  protects key d d' := ∀ u, key = .budget u → d'.charges u = d.charges u
  grows d d' := d.now ≤ d'.now
  protects_refl _ _ _ _ := rfl
  protects_trans _ _ _ _ h h' u hkey := (h' u hkey).trans (h u hkey)
  grows_refl _ := le_rfl
  grows_trans _ _ _ := le_trans

/-- The rows of `requests` were there before, whatever became of them. -/
def OldRequests (d d' : RequestTables) : Prop :=
  ∀ row ∈ d'.requests, ∃ old ∈ d.requests, old.id = row.id ∧ old.userId = row.userId

/-- A commit that charges nobody. -/
structure Quiet (d d' : RequestTables) : Prop where
  now : d.now ≤ d'.now
  charges : d'.chargeRows = d.chargeRows
  created : d'.created = d.created
  requests : OldRequests d d'

/-- A commit that creates a request of `u` and charges the account for it, with
room in the window before its stamp. -/
structure Charge (limit : ℕ) (d d' : RequestTables) (u : ℕ) (row : AuditRecord) : Prop where
  actor : row.actorUserId = some u
  charges : d'.chargeRows = d.chargeRows ++ [row]
  created : d'.created = d.created ++ [⟨row.targetId, u⟩]
  fresh : row.targetId ∉ d.created.map Creation.requestId
  requests : ∀ request ∈ d'.requests, (∃ old ∈ d.requests,
    old.id = request.id ∧ old.userId = request.userId) ∨
      request.id = row.targetId ∧ request.userId = u
  room : ∃ since, since ≤ row.createdAt - ACCESS_REQUEST_BUDGET_WINDOW_MS ∧
    d.chargedSince u since < limit

def Change (limit : ℕ) (d d' : RequestTables) : Prop :=
  Quiet d d' ∨ ∃ u row, Charge limit d d' u row

theorem Quiet.refl (d : RequestTables) : Quiet d d :=
  ⟨le_rfl, rfl, rfl, fun row hrow => ⟨row, hrow, rfl, rfl⟩⟩

theorem Quiet.trans {d'' : RequestTables} (h : Quiet d d') (h' : Quiet d' d'') : Quiet d d'' where
  now := h.now.trans h'.now
  charges := h'.charges.trans h.charges
  created := h'.created.trans h.created
  requests row hrow := by
    obtain ⟨mid, hmid, hid, huser⟩ := h'.requests row hrow
    obtain ⟨old, hold, hid', huser'⟩ := h.requests mid hmid
    exact ⟨old, hold, hid'.trans hid, huser'.trans huser⟩

theorem Quiet.of_account (h : Quiet d d') (u : ℕ) : d'.charges u = d.charges u := by
  rw [RequestTables.charges, RequestTables.charges, h.charges]

/-- What holds in every state. -/
structure Consistent (limit : ℕ) (d : RequestTables) : Prop where
  within : ∀ u start, d.chargedWithin u start ≤ limit
  matched : d.chargeRows.map (fun row => (row.targetId, row.actorUserId)) =
    d.created.map fun creation => (creation.requestId, some creation.userId)
  distinct : (d.created.map Creation.requestId).Nodup
  requests : ∀ row ∈ d.requests, ⟨row.id, row.userId⟩ ∈ d.created

theorem Consistent.quiet (h : Consistent limit d) (hq : Quiet d d') : Consistent limit d' where
  within u start := by
    rw [RequestTables.chargedWithin, hq.of_account]
    exact h.within u start
  matched := by
    rw [hq.charges, hq.created]
    exact h.matched
  distinct := hq.created ▸ h.distinct
  requests row hrow := by
    obtain ⟨old, hold, hid, huser⟩ := hq.requests row hrow
    have hmem := h.requests old hold
    rwa [hq.created, ← hid, ← huser]

variable {row : AuditRecord}

/-- A window that holds the new charge began within the one that was counted. -/
theorem Consistent.charge (h : Consistent limit d) {u : ℕ} (hc : Charge limit d d' u row) :
    Consistent limit d' where
  within v start := by
    have haccount : d'.charges v = d.charges v ++ if u = v then [row] else [] := by
      rw [RequestTables.charges, RequestTables.charges, hc.charges, List.filter_append]
      congr 1
      by_cases huv : u = v
      · simp [hc.actor, huv]
      · simp [hc.actor, huv]
    have hold := h.within v start
    rw [RequestTables.chargedWithin] at hold
    rw [RequestTables.chargedWithin, haccount, List.countP_append]
    by_cases huv : u = v
    · subst huv
      rw [if_pos rfl]
      by_cases hin : start ≤ row.createdAt ∧ row.createdAt ≤ start + ACCESS_REQUEST_BUDGET_WINDOW_MS
      · obtain ⟨since, hsince, hroom⟩ := hc.room
        have hcounted : (d.charges u).countP (fun row => start ≤ row.createdAt ∧
            row.createdAt ≤ start + ACCESS_REQUEST_BUDGET_WINDOW_MS) ≤ d.chargedSince u since := by
          apply List.countP_mono_left
          intro other _ hother
          rw [decide_eq_true_eq] at hother ⊢
          omega
        have hone : [row].countP (fun row => start ≤ row.createdAt ∧
            row.createdAt ≤ start + ACCESS_REQUEST_BUDGET_WINDOW_MS) = 1 := by
          simp [hin]
        omega
      · have hnone : [row].countP (fun row => start ≤ row.createdAt ∧
            row.createdAt ≤ start + ACCESS_REQUEST_BUDGET_WINDOW_MS) = 0 := by
          simp only [List.countP_singleton, decide_eq_true_eq, hin, if_false]
        omega
    · rw [if_neg huv, List.countP_nil]
      exact hold
  matched := by
    rw [hc.charges, hc.created, List.map_append, List.map_append, h.matched]
    simp [hc.actor]
  distinct := by
    rw [hc.created, List.map_append]
    apply h.distinct.append (List.nodup_singleton _)
    intro id hid hid'
    rw [List.mem_singleton.mp hid'] at hid
    exact hc.fresh hid
  requests request hrequest := by
    rw [hc.created, List.mem_append]
    rcases hc.requests request hrequest with ⟨old, hold, hid, huser⟩ | ⟨hid, huser⟩
    · have hmem := h.requests old hold
      rw [hid, huser] at hmem
      exact .inl hmem
    · rw [hid, huser]
      exact .inr (List.mem_singleton_self _)

theorem consistent_of_change (h : Consistent limit d) (hc : Change limit d d') :
    Consistent limit d' := by
  rcases hc with hq | ⟨u, row, hc⟩
  · exact h.quiet hq
  · exact h.charge hc

/-- A creation has one charge row, its account's. -/
theorem Consistent.one_charge (h : Consistent limit d) {creation : Creation}
    (hcreation : creation ∈ d.created) :
    (d.chargeRows.filter fun row => row.targetId = creation.requestId).map (·.actorUserId) =
      [some creation.userId] := by
  have hpairs : (d.chargeRows.filter fun row => row.targetId = creation.requestId).map
      (fun row => (row.targetId, row.actorUserId)) =
        (d.created.filter fun other => other.requestId = creation.requestId).map
          fun other => (other.requestId, some other.userId) := by
    have hfilter := congrArg (List.filter fun pair => pair.1 = creation.requestId) h.matched
    rwa [List.filter_map, List.filter_map] at hfilter
  have hone : (d.created.filter fun other => other.requestId = creation.requestId) = [creation] := by
    have hdistinct := h.distinct
    generalize d.created = created at hcreation hdistinct ⊢
    induction created with
    | nil => cases hcreation
    | cons first rest ih =>
      rw [List.map_cons, List.nodup_cons] at hdistinct
      have hnone : ∀ other ∈ rest, other.requestId ≠ first.requestId := by
        intro other hother hsame
        exact hdistinct.1 (hsame ▸ List.mem_map_of_mem hother)
      rcases List.mem_cons.mp hcreation with rfl | hrest
      · rw [List.filter_cons_of_pos (by simp), List.filter_eq_nil_iff.mpr]
        intro other hother
        simpa using hnone other hother
      · rw [List.filter_cons_of_neg]
        · exact ih hrest hdistinct.2
        · simpa using (hnone creation hrest).symm
  rw [hone] at hpairs
  have hactors := congrArg (List.map Prod.snd) hpairs
  simpa [List.map_map, Function.comp_def] using hactors

/-! ## Writes -/

theorem chargeRows_append {rows : List AuditRecord}
    (h : ∀ row ∈ rows, row.isCharge = false) (haudits : d'.audits = d.audits ++ rows) :
    d'.chargeRows = d.chargeRows := by
  have hnone : rows.filter AuditRecord.isCharge = [] := by
    rw [List.filter_eq_nil_iff]
    intro row hrow
    rw [h row hrow]
    exact Bool.false_ne_true
  rw [RequestTables.chargeRows, haudits, List.filter_append, hnone, List.append_nil]
  rfl

theorem moves_record (h : row.isCharge = false) : Moves Quiet (record row) := by
  intro d a d' hrun
  cases hrun
  refine ⟨le_rfl, chargeRows_append ?_ rfl, rfl, fun old hold => ⟨old, hold, rfl, rfl⟩⟩
  intro other hother
  rw [List.mem_singleton.mp hother]
  exact h

theorem moves_cancelPending (id decidedBy decidedAt : ℕ) :
    Moves Quiet (cancelPending id decidedBy decidedAt) := by
  intro d a d' hrun
  obtain ⟨d₀, d₁, hget, hrun⟩ := run_bind_ok.mp hrun
  cases hget
  split at hrun
  · obtain ⟨_, d₂, hset, hpure⟩ := run_bind_ok.mp hrun
    cases hset
    cases hpure
    refine ⟨le_rfl, rfl, rfl, fun row hrow => ?_⟩
    obtain ⟨old, hold, rfl⟩ := List.mem_map.mp hrow
    refine ⟨old, hold, ?_⟩
    split
    · exact ⟨rfl, rfl⟩
    · exact ⟨rfl, rfl⟩
  · cases hrun
    exact Quiet.refl d

theorem moves_cancelRequest (id decidedBy decidedAt stamp : ℕ) :
    Moves Quiet (cancelRequest id decidedBy decidedAt stamp) := by
  apply Moves.bind (T := Quiet) (fun _ _ _ => Quiet.trans) (moves_cancelPending id decidedBy decidedAt)
  intro moved
  cases moved with
  | true =>
    exact Moves.bind (T := Quiet) (fun _ _ _ => Quiet.trans) (moves_record rfl)
      fun _ => moves_pure Quiet.refl true
  | false => exact moves_pure Quiet.refl false

theorem createRequest_run {row : AccessRequestRecord} {a : Unit}
    (h : (createRequest row).run d = .ok (a, d')) :
    row.id ∉ d.created.map Creation.requestId ∧
      d' = { d with
        requests := d.requests ++ [row], created := d.created ++ [⟨row.id, row.userId⟩] } := by
  obtain ⟨d₀, d₁, hget, h⟩ := run_bind_ok.mp h
  cases hget
  split at h
  · cases h
  · split at h
    · cases h
    · rename_i hfresh
      cases h
      refine ⟨fun hid => hfresh ?_, rfl⟩
      obtain ⟨creation, hcreation, hid⟩ := List.mem_map.mp hid
      rw [List.any_eq_true]
      exact ⟨creation, hcreation, beq_iff_eq.mpr hid⟩

/-- Room for one more charge before `stamp`. -/
def Room (limit u stamp : ℕ) (d : RequestTables) : Prop :=
  ∃ since, since ≤ stamp - ACCESS_REQUEST_BUDGET_WINDOW_MS ∧ d.chargedSince u since < limit

/-- The row that is admitted is a charge with room in its window. -/
theorem admitted_charge {action : AuditAction} {row r : AccessRequestRecord} {stamp : ℕ}
    (haction : ∀ actor id at_, (AuditRecord.mk actor action id at_).isCharge = true)
    (hroom : Room limit row.userId stamp d)
    (h : (admitted action row stamp).run d = .ok (r, d')) :
    d'.now = d.now ∧ Charge limit d d' row.userId ⟨some row.userId, action, row.id, stamp⟩ := by
  obtain ⟨_, d₁, hcreate, h⟩ := run_bind_ok.mp h
  obtain ⟨hfresh, rfl⟩ := createRequest_run hcreate
  obtain ⟨_, d₂, hrecord, hpure⟩ := run_bind_ok.mp h
  cases hrecord
  cases hpure
  refine ⟨rfl, rfl, ?_, rfl, hfresh, ?_, hroom⟩
  · rw [RequestTables.chargeRows, List.filter_append, List.filter_cons, haction]
    rfl
  · intro request hrequest
    rcases List.mem_append.mp hrequest with hold | hnew
    · exact .inl ⟨request, hold, rfl, rfl⟩
    · rw [List.mem_singleton.mp hnew]
      exact .inr ⟨rfl, rfl⟩

theorem Quiet.charge {d₁ : RequestTables} {u : ℕ} (h : Quiet d d₁) (hc : Charge limit d₁ d' u row) :
    Charge limit d d' u row where
  actor := hc.actor
  charges := by rw [hc.charges, h.charges]
  created := by rw [hc.created, h.created]
  fresh := h.created ▸ hc.fresh
  requests request hrequest := by
    rcases hc.requests request hrequest with ⟨mid, hmid, hid, huser⟩ | hnew
    · obtain ⟨old, hold, hid', huser'⟩ := h.requests mid hmid
      exact .inl ⟨old, hold, hid'.trans hid, huser'.trans huser⟩
    · exact .inr hnew
  room := by
    obtain ⟨since, hsince, hroom⟩ := hc.room
    rw [RequestTables.chargedSince, h.of_account] at hroom
    exact ⟨since, hsince, hroom⟩

theorem Charge.others {u v : ℕ} (hc : Charge limit d d' u row) (hne : v ≠ u) :
    d'.charges v = d.charges v := by
  rw [RequestTables.charges, hc.charges, List.filter_append]
  simp [RequestTables.charges, hc.actor, Ne.symm hne]

/-! ## Transactions -/

section Bodies

variable {keys : List RequestKey} {u : ℕ} {α β : Type}

/-- A query of an open transaction under `keys`: an answer satisfies `Q`. -/
abbrev Asks (isolation : Isolation) (keys : List RequestKey) (p : RequestQuery α)
    (Q : α → RequestTables → Prop) (d : RequestTables) : Prop :=
  wpe (budgetDiscipline.Evolves isolation keys) Eq p Q (fun _ _ => True) d

theorem asks_bind {p : RequestQuery β} {g : β → RequestQuery α} {Q : α → RequestTables → Prop}
    (h : Asks isolation keys p (fun b => Asks isolation keys (g b) Q) d) :
    Asks isolation keys (p >>= g) Q d :=
  (wpe_bind p g).mpr h

theorem asks_reads {f : RequestTables → α} {Q : α → RequestTables → Prop}
    (h : ∀ d', budgetDiscipline.Evolves isolation keys d d' → Q (f d') d') :
    Asks isolation keys (reads f) Q d :=
  wpe_look h

theorem asks_refuse {condition : Bool} {error : NexusError} {Q : Unit → RequestTables → Prop}
    (h : Q () d) : Asks isolation keys (refuse condition error) Q d := by
  cases condition with
  | true => trivial
  | false => exact h

theorem Room.evolves {stamp stamp' : ℕ} (h : Room limit u stamp d) (hkey : .budget u ∈ keys)
    (hev : budgetDiscipline.Evolves isolation keys d d') (hstamp : stamp ≤ stamp') :
    Room limit u stamp' d' := by
  obtain ⟨since, hsince, hroom⟩ := h
  refine ⟨since, by omega, ?_⟩
  rw [RequestTables.chargedSince, hev.protects _ hkey u rfl]
  exact hroom

theorem asks_assertWithinBudget (hlimit : 0 < limit) (hkey : .budget u ∈ keys) :
    Asks isolation keys (assertWithinBudget limit u) (fun _ d' => Room limit u d'.now d') d := by
  rw [assertWithinBudget, if_neg hlimit.ne']
  apply asks_bind
  apply asks_reads
  intro d₁ _
  apply asks_bind
  apply asks_reads
  intro d₂ h₂
  apply asks_bind
  apply asks_reads
  intro d₃ h₃
  split
  · rename_i hused
    have hnow₂ : d₁.now ≤ d₂.now := h₂.grows
    have hnow₃ : d₂.now ≤ d₃.now := h₃.grows
    rw [countAudits_add (h₃.protects _ hkey u rfl).symm] at hused
    exact ⟨_, by omega, hused⟩
  · trivial

variable {write : RequestWrite α}

/-- A write that charges nobody keeps to the discipline under any keys. -/
theorem commits_of_quiet {seen : RequestKey → RequestTables} (h : Moves Quiet write) :
    budgetDiscipline.Commits (fun _ => Change limit) keys seen write d := by
  intro a d' hrun
  have hq := h d a d' hrun
  exact ⟨hq.now, fun key _ u _ => hq.of_account u, fun _ _ => .inl hq⟩

/-- So does a charge under the key of its account. -/
theorem commits_of_charge {seen : RequestKey → RequestTables} (hkey : .budget u ∈ keys)
    (h : ∀ a d', write.run d = .ok (a, d') → d.now ≤ d'.now ∧ ∃ row, Charge limit d d' u row) :
    budgetDiscipline.Commits (fun _ => Change limit) keys seen write d := by
  intro a d' hrun
  obtain ⟨hnow, row, hc⟩ := h a d' hrun
  refine ⟨hnow, fun key hnot v hv => ?_, fun _ _ => .inr ⟨u, row, hc⟩⟩
  apply hc.others
  rintro rfl
  exact hnot (hv ▸ hkey)

abbrev BudgetBody (limit : ℕ) (isolation : Isolation) (keys : List RequestKey)
    (body : RequestQuery (RequestWrite α)) : Prop :=
  budgetDiscipline.Body (.none _) (fun _ => Change limit) isolation keys body

/-- What a pending request leaves room for, if anything, charges nobody. -/
theorem asks_closeStale {user : UserRecord} {pending : Option AccessRequestRecord} {stamp : ℕ}
    (hkey : .budget u ∈ keys) (h : Room limit u stamp d) (hnow : stamp ≤ d.now) :
    Asks isolation keys (closeStale user pending)
      (fun write d' => Moves Quiet write ∧ Room limit u d'.now d') d := by
  cases pending with
  | none => exact ⟨moves_pure Quiet.refl (), h.evolves hkey (.refl isolation keys d) hnow⟩
  | some pending =>
    apply asks_bind
    apply asks_reads
    intro d₁ h₁
    split
    · apply asks_bind
      apply asks_reads
      intro d₂ h₂
      apply asks_bind
      apply asks_reads
      intro d₃ h₃
      have hev := (h₁.trans h₂).trans h₃
      refine ⟨?_, h.evolves hkey hev (hnow.trans hev.grows)⟩
      apply Moves.bind (T := Quiet) (fun _ _ _ => Quiet.trans) (moves_cancelRequest _ _ _ _)
      intro closed d _ d' hrun
      cases closed with
      | true =>
        cases hrun
        exact Quiet.refl d
      | false => cases hrun
    · exact (wpe_throw _).mpr trivial

/-- The budget is read and the request created in one transaction. -/
theorem requestBody_body (hlimit : 0 < limit) {user : UserRecord} (hkey : .budget user.id ∈ keys)
    (apiId : ℕ) (applicationId : Option ℕ) (requestedTools : Option (List ℕ)) :
    BudgetBody limit isolation keys (requestBody limit user apiId applicationId requestedTools) := by
  intro seen d _ _
  apply asks_bind
  refine wpe_mono (asks_assertWithinBudget hlimit hkey) ?_ fun _ _ h => h
  rintro - d₁ hroom
  apply asks_bind
  apply asks_reads
  intro d₂ h₂
  apply asks_bind
  refine wpe_mono (asks_closeStale hkey (hroom.evolves hkey h₂ le_rfl) h₂.grows) ?_ fun _ _ h => h
  rintro close d₃ ⟨hclose, hroom⟩
  apply asks_bind
  apply wpe_draw
  intro d₄ id h₄
  apply asks_bind
  apply asks_reads
  intro d₅ h₅ d₆ h₆
  have hstamp : d₃.now ≤ d₅.now := le_trans h₄.grows h₅.grows
  have hroom₆ : Room limit user.id d₅.now d₆ := hroom.evolves hkey ((h₄.trans h₅).trans h₆) hstamp
  apply commits_of_charge hkey
  intro r d' hrun
  obtain ⟨_, d₇, hrunClose, hrun⟩ := run_bind_ok.mp hrun
  have hquiet := hclose d₆ _ d₇ hrunClose
  have hroom₇ : Room limit user.id d₅.now d₇ := by
    obtain ⟨since, hsince, hcount⟩ := hroom₆
    refine ⟨since, hsince, ?_⟩
    rw [RequestTables.chargedSince, hquiet.of_account]
    exact hcount
  obtain ⟨hnow, hc⟩ := admitted_charge (fun _ _ _ => rfl) hroom₇ hrun
  exact ⟨hquiet.now.trans hnow.ge, _, hquiet.charge hc⟩

theorem requestToolsBody_body (hlimit : 0 < limit) {user : UserRecord}
    (hkey : .budget user.id ∈ keys) (apiId grantId : ℕ) (applicationId : Option ℕ)
    (requestedTools : List ℕ) :
    BudgetBody limit isolation keys
      (requestToolsBody limit user apiId grantId applicationId requestedTools) := by
  intro seen d _ _
  apply asks_bind
  refine wpe_mono (asks_assertWithinBudget hlimit hkey) ?_ fun _ _ h => h
  rintro - d₁ hroom
  apply asks_bind
  apply asks_reads
  intro d₂ h₂
  apply asks_bind
  apply asks_refuse
  apply asks_bind
  apply asks_reads
  intro d₃ h₃
  apply asks_bind
  apply asks_refuse
  apply asks_bind
  apply wpe_draw
  intro d₄ id h₄
  apply asks_bind
  apply asks_reads
  intro d₅ h₅ d₆ h₆
  have hev := ((h₂.trans h₃).trans h₄).trans h₅
  have hroom₆ : Room limit user.id d₅.now d₆ := hroom.evolves hkey (hev.trans h₆) hev.grows
  apply commits_of_charge hkey
  intro r d' hrun
  obtain ⟨hnow, hc⟩ := admitted_charge (fun _ _ _ => rfl) hroom₆ hrun
  exact ⟨hnow.ge, _, hc⟩

theorem body_of_quiet (h : Moves Quiet write) :
    BudgetBody limit isolation keys (pure write) :=
  fun _ _ _ _ _ _ => commits_of_quiet h

end Bodies

/-! ## Programs -/

section Soundness

variable {slot : ℕ} {held : Held} {α β : Type}

abbrev BudgetSound (limit slot : ℕ) (held : Held) (p : RequestProgram α) : Prop :=
  budgetDiscipline.Sound (.none _) (fun _ => Change limit) slot held p

theorem sound_transaction {body : RequestQuery (RequestWrite α)}
    (h : BudgetBody limit isolation (held.map Prod.fst) body) :
    BudgetSound limit slot held (transaction isolation slot body held) :=
  Discipline.sound_transact _ _ h

theorem sound_underProxy {proxyId : Option ℕ} {fn : Held → RequestProgram α}
    (h : ∀ held, BudgetSound limit slot held (fn held)) :
    BudgetSound limit slot held (underProxy slot proxyId fn held) := by
  cases proxyId with
  | none => exact h held
  | some proxyId => exact Discipline.sound_underLease _ _ fun _ => h _

theorem sound_underName {applicationId : Option ℕ} {fn : Held → RequestProgram α}
    (h : ∀ held, BudgetSound limit slot held (fn held)) :
    BudgetSound limit slot held (underName slot applicationId fn held) := by
  cases applicationId with
  | none => exact h held
  | some applicationId => exact Discipline.sound_underLease _ _ fun _ => h _

/-- A transaction that charges an account runs under its budget key. -/
theorem sound_spendBudget (hlimit : 0 < limit) {u : ℕ} {body : RequestQuery (RequestWrite α)}
    (h : ∀ keys, .budget u ∈ keys → BudgetBody limit isolation keys body) :
    BudgetSound limit slot held
      (spendBudget limit slot u (transaction isolation slot body) held) := by
  rw [spendBudget, if_neg hlimit.ne']
  apply Discipline.sound_underLease
  intro token
  apply sound_transaction
  apply h
  simp

theorem sound_request (hlimit : 0 < limit) (user : UserRecord) (apiId : ℕ)
    (applicationId : Option ℕ) (requestedTools : Option (List ℕ)) :
    BudgetSound limit slot [] (request limit isolation slot user apiId applicationId requestedTools) := by
  apply Discipline.Sound.bind (Discipline.sound_watch _)
  intro api
  apply sound_underProxy
  intro held
  apply sound_underName
  intro held
  apply Discipline.Sound.bind (Discipline.sound_watch _)
  intro _
  apply sound_spendBudget hlimit
  intro keys hkey
  exact requestBody_body hlimit hkey api.id applicationId requestedTools

theorem sound_requestTools (hlimit : 0 < limit) (user : UserRecord) (grantId : ℕ)
    (requestedTools : List ℕ) :
    BudgetSound limit slot [] (requestTools limit isolation slot user grantId requestedTools) := by
  apply Discipline.Sound.bind (Discipline.sound_watch _)
  rintro ⟨initial, api⟩
  apply sound_underProxy
  intro held
  apply sound_underName
  intro held
  apply Discipline.Sound.bind (Discipline.sound_watch _)
  intro grant
  apply sound_spendBudget hlimit
  intro keys hkey
  exact requestToolsBody_body hlimit hkey api.id grantId grant.applicationId requestedTools

theorem sound_cancel (user : UserRecord) (requestId : ℕ) :
    BudgetSound limit slot [] (cancel isolation slot user requestId) := by
  apply Discipline.Sound.bind (Discipline.sound_watch _)
  intro _
  apply Discipline.Sound.bind
  · apply sound_transaction
    intro seen d _ _
    apply asks_bind
    apply asks_reads
    intro d₁ _
    apply asks_bind
    apply asks_reads
    intro d₂ _ d₃ _
    exact commits_of_quiet (moves_cancelRequest _ _ _ _)
  · intro moved
    cases moved with
    | true => exact Discipline.sound_pure ()
    | false => exact Discipline.sound_watch _

theorem sound_deleteApplication (applicationId : ℕ) :
    BudgetSound limit slot [] (deleteApplication isolation slot applicationId) := by
  apply sound_underName
  intro held
  apply sound_transaction
  apply body_of_quiet
  intro d _ d' hrun
  cases hrun
  exact ⟨le_rfl, rfl, rfl, fun row hrow => ⟨row, (List.mem_filter.mp hrow).1, rfl, rfl⟩⟩

theorem sound_elsewhere (change : Elsewhere) :
    BudgetSound limit slot [] (elsewhere isolation slot change) := by
  apply sound_transaction
  apply body_of_quiet
  intro d _ d' hrun
  cases hrun
  obtain ⟨rows, haudits, hrows⟩ := change.audits d
  refine ⟨(change.now d).ge, chargeRows_append ?_ haudits, change.created d, change.requests d⟩
  intro row hrow
  obtain ⟨hrequest, htools⟩ := hrows row hrow
  simp [AuditRecord.isCharge, hrequest, htools]

theorem sound_tick : BudgetSound limit slot [] (tick isolation slot) := by
  apply sound_transaction
  intro seen d _ _
  apply asks_bind
  apply wpe_draw
  intro d₁ elapsed _ d₂ _
  apply commits_of_quiet
  intro d _ d' hrun
  cases hrun
  exact ⟨Nat.le_add_right _ _, rfl, rfl, fun row hrow => ⟨row, hrow, rfl, rfl⟩⟩

theorem requestProgram_sound (hlimit : 0 < limit) (slot : ℕ) (op : RequestOp)
    (s : Leased RequestKey RequestTables) :
    wp (budgetDiscipline.Kept slot) (budgetDiscipline.Guar (fun _ => Change limit) slot)
      (requestProgram limit isolation slot op) (fun _ _ => True) s := by
  cases op with
  | request user apiId applicationId requestedTools =>
    exact (sound_request hlimit user apiId applicationId requestedTools).toProgram s
  | requestTools user grantId requestedTools =>
    exact (sound_requestTools hlimit user grantId requestedTools).toProgram s
  | cancel user requestId => exact (sound_cancel user requestId).toProgram s
  | deleteApplication applicationId => exact (sound_deleteApplication applicationId).toProgram s
  | elsewhere change => exact (sound_elsewhere change).toProgram s
  | tick => exact sound_tick.toProgram s

/-! ## Runs -/

/-- No window holds more charges than the limit, and every request ever created,
deleted ones included, has one charge row, of its account. -/
structure Budgeted (limit : ℕ) (d : RequestTables) : Prop where
  within : ∀ u start, d.chargedWithin u start ≤ limit
  one_charge : ∀ creation ∈ d.created,
    (d.chargeRows.filter fun row => row.targetId = creation.requestId).map (·.actorUserId) =
      [some creation.userId]
  created : ∀ row ∈ d.requests, ⟨row.id, row.userId⟩ ∈ d.created

/-- A request is created with its charge or neither is written. -/
def Together (d d' : RequestTables) : Prop :=
  (d'.chargeRows = d.chargeRows ∧ d'.created = d.created) ∨
  ∃ u row, row.actorUserId = some u ∧ d'.chargeRows = d.chargeRows ++ [row] ∧
    d'.created = d.created ++ [⟨row.targetId, u⟩]

theorem Consistent.budgeted (h : Consistent limit d) : Budgeted limit d :=
  ⟨h.within, fun _ => h.one_charge, h.requests⟩

/-- The budget holds in every state of every run, and no action of a run writes
a charge without its request. -/
theorem request_budget_holds (limit : ℕ) (hlimit : 0 < limit) (isolation : Isolation)
    (ok : Leased RequestKey RequestTables → RequestOp → Prop) :
    (∀ s ts, Pool.Reachable (requestProgram limit isolation) (fun s => Consistent limit s.data) ok
      Leased.stop s ts → Budgeted limit s.data) ∧
    ∀ s s', Pool.Transition (requestProgram limit isolation) (fun s => Consistent limit s.data) ok
      Leased.stop s s' → Together s.data s'.data := by
  constructor
  · intro s ts h
    exact (budgetDiscipline.invariant (I := Consistent limit) (fun _ hs => hs)
      (fun _ _ _ => consistent_of_change) (requestProgram_sound hlimit) h).1.budgeted
  · intro s s' h
    obtain ⟨-, hsame | hq | ⟨u, row, hc⟩⟩ := Discipline.transition (I := Consistent limit)
      (fun _ hs => hs) (fun _ _ _ => consistent_of_change) (requestProgram_sound hlimit) h
    · exact .inl ⟨by rw [hsame], by rw [hsame]⟩
    · exact .inl ⟨hq.charges, hq.created⟩
    · exact .inr ⟨u, row, hc.actor, hc.charges, hc.created⟩

def catalogue : RequestTables where
  now := 5
  apis := [⟨1, 3, none, true, true, none, none⟩]
  applications := []
  grants := []
  requests := []
  audits := []
  created := []

def catalogueWorld : Leased RequestKey RequestTables :=
  ⟨catalogue, fun _ => none, 0, fun _ => 0, fun _ => catalogue, none⟩

theorem consistent_catalogue : Consistent 1 catalogue where
  within _ _ := Nat.zero_le _
  matched := rfl
  distinct := List.nodup_nil
  requests _ h := absurd h List.not_mem_nil

def ann : UserRecord := ⟨2, .client, .active⟩

def acts (slot n answer : ℕ) (op : RequestOp) : List (Pool.Event RequestOp Chance) :=
  .start slot op :: List.replicate n (.step slot ⟨.ok, answer⟩)

/-- One request, up to the commit of its transaction. -/
def annRequests : List (Pool.Event RequestOp Chance) := acts 0 14 7 (.request ann 1 none none)

/-- Its cancellation leaves the charge, so the next request is refused. -/
def annRequestsAgain : List (Pool.Event RequestOp Chance) :=
  annRequests ++ [.step 0 ⟨.ok, 7⟩, .step 0 ⟨.ok, 7⟩, .finish 0] ++
    acts 1 5 0 (.cancel ann 7) ++ [.finish 1] ++
    acts 2 13 8 (.request ann 1 none none) ++ [.finish 2]

theorem request_budget_holds_ann :
    (∃ s ts, Pool.Reachable (requestProgram 1 .readCommitted) (fun s => Consistent 1 s.data)
      (fun _ _ => True) Leased.stop s ts ∧ (s.data.created = [⟨7, 2⟩] ∧
        s.data.requests.map (·.status) = [.cancelled]) ∧ Budgeted 1 s.data) ∧
    ∃ s s', Pool.Transition (requestProgram 1 .readCommitted) (fun s => Consistent 1 s.data)
      (fun _ _ => True) Leased.stop s s' ∧ (s.data.created = [] ∧ s'.data.created = [⟨7, 2⟩]) ∧
      Together s.data s'.data := by
  obtain ⟨hstates, hactions⟩ := request_budget_holds 1 (by decide) .readCommitted fun _ _ => True
  constructor
  · obtain ⟨s, ts, hs, hcreated⟩ := Pool.exists_reachable_of_exec
      (requestProgram 1 .readCommitted) (fun s => Consistent 1 s.data) (fun _ _ => True) Leased.stop
      annRequestsAgain
      (fun s => s.data.created == [⟨7, 2⟩] && s.data.requests.map (·.status) == [.cancelled])
      (fun _ _ => trivial) (s := catalogueWorld) consistent_catalogue (by decide +kernel)
    rw [Bool.and_eq_true, beq_iff_eq, beq_iff_eq] at hcreated
    exact ⟨s, ts, hs, hcreated, hstates s ts hs⟩
  · obtain ⟨s, s', h, hcreated⟩ := Pool.exists_transition
      (requestProgram 1 .readCommitted) (fun s => Consistent 1 s.data) (fun _ _ => True) Leased.stop
      annRequests 0 ⟨.ok, 7⟩ (fun s s' => s.data.created == [] && s'.data.created == [⟨7, 2⟩])
      (fun _ _ => trivial) (s := catalogueWorld) consistent_catalogue (by decide +kernel)
    rw [Bool.and_eq_true, beq_iff_eq, beq_iff_eq] at hcreated
    exact ⟨s, s', h, hcreated, hactions s s' h⟩

end Soundness

end FerrumNexus.Access.Budget
