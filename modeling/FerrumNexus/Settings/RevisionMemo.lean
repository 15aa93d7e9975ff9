import FerrumNexus.Saga.Histories
import Mathlib.Tactic

/-!
# A memo that a revision counter invalidates

`memoizeByRevision` as the segments its calls run between two awaits: a call
reads the revision and looks at the cache, starts an assembly or joins the
pending one, and looks at the revision once more when the promise has settled.
The revision source, the clock and the assembly are the caller's: a bump may
come at any moment, `Date.now()` reads anything, a run resolves or rejects when
it likes. A run's own first segment is the caller's code as well, so that
`pending` is set in a later step than the one that starts the run.
-/
namespace FerrumNexus.Settings

open Saga.History

/-- A memoised value and the moment its reads started. -/
structure RevisionMemoResult (α : Type) where
  value : α
  checkedAt : ℤ
  deriving DecidableEq, Repr

structure Cached (ρ α : Type) where
  result : RevisionMemoResult α
  expiresAt : ℤ
  revision : ρ
  deriving DecidableEq, Repr

structure Pending (ρ : Type) where
  revision : ρ
  promise : ℕ
  deriving DecidableEq, Repr

/-- Where an assembly stands. It has an outcome (none where the run rejected)
before `finally` has run and its promise settles. -/
inductive Progress (α : Type)
  | running
  | assembled (outcome : Option (RevisionMemoResult α))
  | settled (outcome : Option (RevisionMemoResult α))
  deriving DecidableEq, Repr

/-- One run and the promise of its result, with the revision that was read for
it; no revision is read where there is no memo. -/
structure Assembly (ρ α : Type) where
  revision : Option ρ
  checkedAt : ℤ
  progress : Progress α
  deriving DecidableEq, Repr

/-- Where a call of `load` stands. -/
inductive Load (ρ α : Type)
  | entered
  | starting (revision : ρ)
  | installing (revision : ρ) (promise : ℕ)
  | awaiting (revision : ρ) (promise : ℕ)
  | unmemoised (promise : ℕ)
  | returned (result : RevisionMemoResult α)
  | threw
  deriving DecidableEq, Repr

structure Memo (ρ α : Type) where
  revision : ρ
  cached : Option (Cached ρ α)
  pending : Option (Pending ρ)
  loads : ℕ → Option (Load ρ α)
  assemblies : ℕ → Option (Assembly ρ α)

inductive Event (ρ α : Type)
  | bump (revision : ρ)
  | call (load : ℕ)
  | look (load : ℕ) (now : ℤ)
  | start (load promise : ℕ) (now : ℤ)
  | install (load : ℕ)
  | resolve (promise : ℕ) (value : α) (now : ℤ)
  | reject (promise : ℕ)
  | settle (promise : ℕ)
  | resume (load : ℕ)
  deriving DecidableEq, Repr

variable {ρ α : Type} [LinearOrder ρ]

def Memo.setLoad (m : Memo ρ α) (l : ℕ) (load : Load ρ α) : Memo ρ α :=
  { m with loads := Function.update m.loads l (some load) }

def Memo.setAssembly (m : Memo ρ α) (p : ℕ) (a : Assembly ρ α) : Memo ρ α :=
  { m with assemblies := Function.update m.assemblies p (some a) }

/-- Nothing memoised, nothing called. -/
def Memo.init (revision : ρ) : Memo ρ α := ⟨revision, none, none, fun _ => none, fun _ => none⟩

/-- The first segment of `load`: what the cache holds for this revision, else
the pending promise, else an assembly of its own. -/
def Memo.look (m : Memo ρ α) (l : ℕ) (now : ℤ) : Memo ρ α :=
  match m.cached.filter fun c => c.revision = m.revision ∧ now < c.expiresAt with
  | some c => m.setLoad l (.returned c.result)
  | none =>
    match m.pending.filter fun q => q.revision = m.revision with
    | some q => m.setLoad l (.awaiting m.revision q.promise)
    | none => m.setLoad l (.starting m.revision)

/-- What follows `await run()`: a write during the assembly must not repopulate
the cache with old data. -/
def Memo.resolve (ttlMs : ℤ) (m : Memo ρ α) (p : ℕ) (a : Assembly ρ α) (value : α) (now : ℤ) :
    Memo ρ α :=
  let result : RevisionMemoResult α := ⟨value, a.checkedAt⟩
  match a.revision with
  | none => m.setAssembly p { a with progress := .settled (some result) }
  | some revision =>
    { m.setAssembly p { a with progress := .assembled (some result) } with
      cached := if m.revision = revision then some ⟨result, now + ttlMs, revision⟩ else m.cached }

def Memo.reject (m : Memo ρ α) (p : ℕ) (a : Assembly ρ α) : Memo ρ α :=
  match a.revision with
  | none => m.setAssembly p { a with progress := .settled none }
  | some _ => m.setAssembly p { a with progress := .assembled none }

/-- `finally`: the pending promise is dropped if it is still this one. -/
def Memo.settle (m : Memo ρ α) (p : ℕ) (a : Assembly ρ α)
    (outcome : Option (RevisionMemoResult α)) : Memo ρ α :=
  { m.setAssembly p { a with progress := .settled outcome } with
    pending := m.pending.filter fun q => q.promise ≠ p }

/-- What follows `await pending.promise`: the result, or another round where the
revision has changed meanwhile. -/
def Memo.resume (m : Memo ρ α) (l : ℕ) (revision : ρ) (outcome : Option (RevisionMemoResult α)) :
    Memo ρ α :=
  match outcome with
  | none => m.setLoad l .threw
  | some result => m.setLoad l (if m.revision = revision then .returned result else .entered)

/-- The outcome of a promise that has settled. -/
def Memo.settled (m : Memo ρ α) (p : ℕ) : Option (Option (RevisionMemoResult α)) :=
  match m.assemblies p with
  | some ⟨_, _, .settled outcome⟩ => some outcome
  | _ => none

/-- One event, where the state allows it. -/
def Memo.step (ttlMs : ℤ) (m : Memo ρ α) : Event ρ α → Option (Memo ρ α)
  | .bump revision => if m.revision < revision then some { m with revision } else none
  | .call l =>
    match m.loads l with
    | none => some (m.setLoad l .entered)
    | some _ => none
  | .look l now =>
    match m.loads l with
    | some .entered => if 0 < ttlMs then some (m.look l now) else none
    | _ => none
  | .start l p now =>
    match m.loads l, m.assemblies p with
    | some .entered, none =>
      if ttlMs ≤ 0 then
        some ((m.setAssembly p ⟨none, now, .running⟩).setLoad l (.unmemoised p))
      else none
    | some (.starting revision), none =>
      some ((m.setAssembly p ⟨some revision, now, .running⟩).setLoad l (.installing revision p))
    | _, _ => none
  | .install l =>
    match m.loads l with
    | some (.installing revision p) =>
      some { m.setLoad l (.awaiting revision p) with pending := some ⟨revision, p⟩ }
    | _ => none
  | .resolve p value now =>
    match m.assemblies p with
    | some ⟨revision, checkedAt, .running⟩ =>
      some (m.resolve ttlMs p ⟨revision, checkedAt, .running⟩ value now)
    | _ => none
  | .reject p =>
    match m.assemblies p with
    | some ⟨revision, checkedAt, .running⟩ => some (m.reject p ⟨revision, checkedAt, .running⟩)
    | _ => none
  | .settle p =>
    match m.assemblies p with
    | some ⟨revision, checkedAt, .assembled outcome⟩ =>
      some (m.settle p ⟨revision, checkedAt, .assembled outcome⟩ outcome)
    | _ => none
  | .resume l =>
    match m.loads l with
    | some (.awaiting revision p) => (m.settled p).map (m.resume l revision)
    | some (.unmemoised p) =>
      (m.settled p).map fun outcome => m.setLoad l (outcome.elim .threw .returned)
    | _ => none


/-! ## What a history shows of a call and of a run -/

/-- Whatever was done before the call, the revision has not been bumped beyond
what it read. -/
def Reads (es : List (Event ρ α)) (l : ℕ) (revision : ρ) : Prop :=
  ∀ (j b : ℕ) r, es[j]? = some (.call l) → b < j → es[b]? = some (.bump r) → r ≤ revision

/-- Every bump that precedes the call precedes the `n`-th event. -/
def Fresh (es : List (Event ρ α)) (l n : ℕ) : Prop :=
  ∀ (j b : ℕ) r, es[j]? = some (.call l) → b < j → es[b]? = some (.bump r) → b < n

/-- A result is a run's: one that started no earlier than the latest bump before
the call, and resolved. -/
def Served (es : List (Event ρ α)) (l : ℕ) (result : RevisionMemoResult α) : Prop :=
  ∃ p, ∃ n k : ℕ, ∃ starter now, es[n]? = some (.start starter p result.checkedAt) ∧
    es[k]? = some (.resolve p result.value now) ∧ Fresh es l n

def Progress.outcome : Progress α → Option (Option (RevisionMemoResult α))
  | .running => none
  | .assembled outcome => some outcome
  | .settled outcome => some outcome

/-- What the history says of an assembly. Bumps after the start of its run go
beyond the revision it was started for. -/
structure Backed (es : List (Event ρ α)) (p : ℕ) (a : Assembly ρ α) : Prop where
  began : ∃ (n : ℕ) (l : ℕ), es[n]? = some (.start l p a.checkedAt) ∧
    ∀ r, a.revision = some r → ∀ (b : ℕ) r', n ≤ b → es[b]? = some (.bump r') → r < r'
  resolved : ∀ result, a.progress.outcome = some (some result) →
    result.checkedAt = a.checkedAt ∧ ∃ (k : ℕ) (now : ℤ), es[k]? = some (.resolve p result.value now)
  rejected : ∀ k : ℕ, es[k]? = some (.reject p) → a.progress.outcome = some none

/-- An assembly for this revision. -/
def Memo.Assembles (m : Memo ρ α) (revision : ρ) (p : ℕ) : Prop :=
  ∃ a, m.assemblies p = some a ∧ a.revision = some revision

/-- What is known of a call by where it stands. -/
def Load.Ok (es : List (Event ρ α)) (m : Memo ρ α) (l : ℕ) : Load ρ α → Prop
  | .entered | .threw => True
  | .starting revision => Reads es l revision ∧ revision ≤ m.revision
  | .installing revision p | .awaiting revision p =>
    Reads es l revision ∧ m.Assembles revision p
  | .unmemoised p =>
    ∃ a, ∃ n : ℕ, m.assemblies p = some a ∧ es[n]? = some (.start l p a.checkedAt) ∧ Fresh es l n
  | .returned result => Served es l result

structure Inv (es : List (Event ρ α)) (m : Memo ρ α) : Prop where
  bumps : ∀ (b : ℕ) r, es[b]? = some (.bump r) → r ≤ m.revision
  uncalled : ∀ l, m.loads l = none → ∀ j : ℕ, es[j]? ≠ some (.call l)
  assemblies : ∀ p a, m.assemblies p = some a →
    Backed es p a ∧ ∀ r, a.revision = some r → r ≤ m.revision
  absent : ∀ p, m.assemblies p = none → ∀ k : ℕ, es[k]? ≠ some (.reject p)
  loads : ∀ l load, m.loads l = some load → load.Ok es m l
  cached : ∀ c, m.cached = some c → ∃ p a, m.assemblies p = some a ∧
    a.revision = some c.revision ∧ a.progress.outcome = some (some c.result)
  pending : ∀ q, m.pending = some q → m.Assembles q.revision q.promise

theorem Inv.init (revision : ρ) : Inv [] (Memo.init revision : Memo ρ α) where
  bumps := by simp
  uncalled := by simp
  assemblies := by simp [Memo.init]
  absent := by simp
  loads := by simp [Memo.init]
  cached := by simp [Memo.init]
  pending := by simp [Memo.init]

variable {es : List (Event ρ α)} {m : Memo ρ α} {e : Event ρ α} {l p n : ℕ}

/-! ## A longer history -/

variable {revision : ρ} {a : Assembly ρ α} {checkedAt ttlMs : ℤ}
  {outcome : Option (RevisionMemoResult α)} {m' : Memo ρ α}

theorem Reads.concat (h : Reads es l revision) (he : e ≠ .call l) :
    Reads (es ++ [e]) l revision := by
  intro j b r hj hb hbump
  rcases event_of_concat hj with hj | ⟨-, hcall⟩
  · rcases event_of_concat hbump with hbump | ⟨hlast, -⟩
    · exact h j b r hj hb hbump
    · obtain ⟨hlt, -⟩ := List.getElem?_eq_some_iff.mp hj
      omega
  · exact absurd hcall he

omit [LinearOrder ρ] in
theorem Fresh.concat (h : Fresh es l n) (he : e ≠ .call l) : Fresh (es ++ [e]) l n := by
  intro j b r hj hb hbump
  rcases event_of_concat hj with hj | ⟨-, hcall⟩
  · rcases event_of_concat hbump with hbump | ⟨hlast, -⟩
    · exact h j b r hj hb hbump
    · obtain ⟨hlt, -⟩ := List.getElem?_eq_some_iff.mp hj
      omega
  · exact absurd hcall he

omit [LinearOrder ρ] in
theorem Served.concat {result : RevisionMemoResult α} (h : Served es l result)
    (he : e ≠ .call l) : Served (es ++ [e]) l result := by
  obtain ⟨p, n, k, starter, now, hstart, hresolve, hfresh⟩ := h
  exact ⟨p, n, k, starter, now, event_concat e hstart, event_concat e hresolve,
    hfresh.concat he⟩

theorem Load.Ok.concat {load : Load ρ α} (h : load.Ok es m l) (he : e ≠ .call l) :
    load.Ok (es ++ [e]) m l := by
  cases load with
  | entered => trivial
  | starting revision => exact ⟨h.1.concat he, h.2⟩
  | installing revision p => exact ⟨h.1.concat he, h.2⟩
  | awaiting revision p => exact ⟨h.1.concat he, h.2⟩
  | unmemoised p =>
    obtain ⟨a, n, ha, hstart, hfresh⟩ := h
    exact ⟨a, n, ha, event_concat e hstart, hfresh.concat he⟩
  | returned result => exact Served.concat h he
  | threw => trivial

theorem Backed.concat (h : Backed es p a)
    (hbump : ∀ r r', a.revision = some r → e = .bump r' → r < r')
    (hreject : e = .reject p → a.progress.outcome = some none) : Backed (es ++ [e]) p a where
  began := by
    obtain ⟨n, l, hstart, hlater⟩ := h.began
    refine ⟨n, l, event_concat e hstart, fun r hr b r' hn hb => ?_⟩
    rcases event_of_concat hb with hb | ⟨-, hlast⟩
    · exact hlater r hr b r' hn hb
    · exact hbump r r' hr hlast
  resolved := by
    intro result hresult
    obtain ⟨hchecked, k, now, hresolve⟩ := h.resolved result hresult
    exact ⟨hchecked, k, now, event_concat e hresolve⟩
  rejected := by
    intro k hk
    rcases event_of_concat hk with hk | ⟨-, hlast⟩
    · exact h.rejected k hk
    · exact hreject hlast

/-- An event that the state has taken account of. -/
theorem Inv.record (h : Inv es m) (hbump : ∀ r, e ≠ .bump r)
    (hcall : ∀ l, e = .call l → m.loads l = some .entered)
    (hreject : ∀ p, e = .reject p → ∃ a, m.assemblies p = some a ∧
      a.progress.outcome = some none) : Inv (es ++ [e]) m where
  bumps := by
    intro b r hb
    rcases event_of_concat hb with hb | ⟨-, hlast⟩
    · exact h.bumps b r hb
    · exact absurd hlast (hbump r)
  uncalled := by
    intro l hl j hj
    rcases event_of_concat hj with hj | ⟨-, hlast⟩
    · exact h.uncalled l hl j hj
    · rw [hcall l hlast] at hl
      cases hl
  assemblies := by
    intro p a ha
    obtain ⟨hbacked, hrevision⟩ := h.assemblies p a ha
    refine ⟨hbacked.concat (fun r r' _ he => absurd he (hbump r')) fun he => ?_, hrevision⟩
    obtain ⟨a', ha', houtcome⟩ := hreject p he
    rw [ha, Option.some.injEq] at ha'
    rw [ha', houtcome]
  absent := by
    intro p hp k hk
    rcases event_of_concat hk with hk | ⟨-, hlast⟩
    · exact h.absent p hp k hk
    · obtain ⟨a, ha, -⟩ := hreject p hlast
      rw [ha] at hp
      cases hp
  loads := by
    intro l load hl
    by_cases he : e = .call l
    · rw [hcall l he, Option.some.injEq] at hl
      rw [← hl]
      trivial
    · exact (h.loads l load hl).concat he
  cached := h.cached
  pending := h.pending

theorem Inv.bump (h : Inv es m) (hlt : m.revision < revision) :
    Inv (es ++ [.bump revision]) { m with revision } where
  bumps := by
    intro b r hb
    rcases event_of_concat hb with hb | ⟨-, hlast⟩
    · exact le_trans (h.bumps b r hb) (le_of_lt hlt)
    · rw [Event.bump.injEq] at hlast
      rw [← hlast]
  uncalled := by
    intro l hl j hj
    rcases event_of_concat hj with hj | ⟨-, hlast⟩
    · exact h.uncalled l hl j hj
    · cases hlast
  assemblies := by
    intro p a ha
    obtain ⟨hbacked, hrevision⟩ := h.assemblies p a ha
    constructor
    · apply hbacked.concat
      · intro r r' hr he
        rw [Event.bump.injEq] at he
        rw [← he]
        exact lt_of_le_of_lt (hrevision r hr) hlt
      · intro he
        cases he
    · intro r hr
      exact le_trans (hrevision r hr) (le_of_lt hlt)
  absent := by
    intro p hp k hk
    rcases event_of_concat hk with hk | ⟨-, hlast⟩
    · exact h.absent p hp k hk
    · cases hlast
  loads := by
    intro l load hl
    have hok := (h.loads l load hl).concat (e := .bump revision) (by simp)
    cases load with
    | starting r => exact ⟨hok.1, le_trans hok.2 (le_of_lt hlt)⟩
    | entered => trivial
    | threw => trivial
    | installing r p => exact hok
    | awaiting r p => exact hok
    | unmemoised p => exact hok
    | returned result => exact hok
  cached := h.cached
  pending := h.pending

/-! ## A state that has moved on -/

theorem Inv.setLoad (h : Inv es m) {load : Load ρ α} (hok : load.Ok es m l) :
    Inv es (m.setLoad l load) where
  bumps := h.bumps
  uncalled := by
    intro l' hl'
    by_cases heq : l' = l
    · subst heq
      simp [Memo.setLoad] at hl'
    · simp only [Memo.setLoad, Function.update_of_ne heq] at hl'
      exact h.uncalled l' hl'
  assemblies := h.assemblies
  absent := h.absent
  loads := by
    intro l' load' hl'
    by_cases heq : l' = l
    · subst heq
      simp only [Memo.setLoad, Function.update_self, Option.some.injEq] at hl'
      rw [← hl']
      exact hok
    · simp only [Memo.setLoad, Function.update_of_ne heq] at hl'
      exact h.loads l' load' hl'
  cached := h.cached
  pending := h.pending

/-- What an assembly may turn into: the same run, its outcome kept. -/
def Memo.Advances (m : Memo ρ α) (p : ℕ) (a : Assembly ρ α) : Prop :=
  ∀ old, m.assemblies p = some old → a.revision = old.revision ∧ a.checkedAt = old.checkedAt ∧
    ∀ outcome, old.progress.outcome = some outcome → a.progress.outcome = some outcome

omit [LinearOrder ρ] in
theorem Memo.Advances.kept {old : Assembly ρ α} {p' : ℕ} (h : m.Advances p a)
    (hold : m.assemblies p' = some old) :
    ∃ new, (m.setAssembly p a).assemblies p' = some new ∧ new.revision = old.revision ∧
      new.checkedAt = old.checkedAt ∧
      ∀ outcome, old.progress.outcome = some outcome → new.progress.outcome = some outcome := by
  by_cases heq : p' = p
  · subst heq
    exact ⟨a, by simp [Memo.setAssembly], h old hold⟩
  · refine ⟨old, ?_, rfl, rfl, fun _ houtcome => houtcome⟩
    simp only [Memo.setAssembly, Function.update_of_ne heq]
    exact hold

omit [LinearOrder ρ] in
theorem Memo.Assembles.kept {p' : ℕ} (h : m.Assembles revision p') (hadvances : m.Advances p a) :
    (m.setAssembly p a).Assembles revision p' := by
  obtain ⟨old, hold, hrevision⟩ := h
  obtain ⟨new, hnew, hsame, -, -⟩ := hadvances.kept hold
  exact ⟨new, hnew, hsame.trans hrevision⟩

theorem Inv.setAssembly (h : Inv es m) (hadvances : m.Advances p a) (hbacked : Backed es p a)
    (hrevision : ∀ r, a.revision = some r → r ≤ m.revision) :
    Inv es (m.setAssembly p a) where
  bumps := h.bumps
  uncalled := h.uncalled
  assemblies := by
    intro p' a' hp'
    by_cases heq : p' = p
    · subst heq
      simp only [Memo.setAssembly, Function.update_self, Option.some.injEq] at hp'
      rw [← hp']
      exact ⟨hbacked, hrevision⟩
    · simp only [Memo.setAssembly, Function.update_of_ne heq] at hp'
      exact h.assemblies p' a' hp'
  absent := by
    intro p' hp'
    by_cases heq : p' = p
    · subst heq
      simp [Memo.setAssembly] at hp'
    · simp only [Memo.setAssembly, Function.update_of_ne heq] at hp'
      exact h.absent p' hp'
  loads := by
    intro l load hl
    have hok := h.loads l load hl
    cases load with
    | entered => trivial
    | starting revision => exact hok
    | installing revision p' => exact ⟨hok.1, hok.2.kept hadvances⟩
    | awaiting revision p' => exact ⟨hok.1, hok.2.kept hadvances⟩
    | unmemoised p' =>
      obtain ⟨old, n, hold, hstart, hfresh⟩ := hok
      obtain ⟨new, hnew, -, hchecked, -⟩ := hadvances.kept hold
      exact ⟨new, n, hnew, hchecked ▸ hstart, hfresh⟩
    | returned result => exact hok
    | threw => trivial
  cached := by
    intro c hc
    obtain ⟨p', old, hold, hrev, houtcome⟩ := h.cached c hc
    obtain ⟨new, hnew, hsame, -, hkept⟩ := hadvances.kept hold
    exact ⟨p', new, hnew, hsame.trans hrev, hkept _ houtcome⟩
  pending := fun q hq => (h.pending q hq).kept hadvances

theorem Inv.setPending (h : Inv es m) {pending : Option (Pending ρ)}
    (hpending : ∀ q, pending = some q → m.Assembles q.revision q.promise) :
    Inv es { m with pending } :=
  { h with pending := hpending }

theorem Inv.setCached (h : Inv es m) {cached : Option (Cached ρ α)}
    (hcached : ∀ c, cached = some c → ∃ p a, m.assemblies p = some a ∧
      a.revision = some c.revision ∧ a.progress.outcome = some (some c.result)) :
    Inv es { m with cached } :=
  { h with cached := hcached }

/-! ## One event -/

/-- The revision read last is one that no earlier bump went beyond. -/
theorem Inv.reads (h : Inv es m) (l : ℕ) : Reads es l m.revision :=
  fun _ b r _ _ hbump => h.bumps b r hbump

/-- The outcome of an assembly for a revision serves the calls that read it. -/
theorem Backed.served {result : RevisionMemoResult α} (h : Backed es p a)
    (hrevision : a.revision = some revision) (hreads : Reads es l revision)
    (houtcome : a.progress.outcome = some (some result)) : Served es l result := by
  obtain ⟨n, starter, hstart, hlater⟩ := h.began
  obtain ⟨hchecked, k, now, hresolve⟩ := h.resolved result houtcome
  refine ⟨p, n, k, starter, now, by rw [hchecked]; exact hstart, hresolve, ?_⟩
  intro j b r hcall hb hbump
  by_contra hn
  -- A bump after the start goes beyond the revision, one before the call does not.
  have hle := hreads j b r hcall hb hbump
  have hlt := hlater revision hrevision b r (by omega) hbump
  exact absurd hle (not_le_of_gt hlt)

theorem Inv.look (h : Inv es m) (now : ℤ) : Inv es (m.look l now) := by
  unfold Memo.look
  cases hcached : m.cached.filter fun c => c.revision = m.revision ∧ now < c.expiresAt with
  | some c =>
    rw [Option.filter_eq_some_iff, decide_eq_true_eq] at hcached
    obtain ⟨p, a, ha, hrevision, houtcome⟩ := h.cached c hcached.1
    have hbacked := (h.assemblies p a ha).1
    apply h.setLoad
    exact hbacked.served hrevision (hcached.2.1 ▸ h.reads l) houtcome
  | none =>
    cases hpending : m.pending.filter fun q => q.revision = m.revision with
    | some q =>
      rw [Option.filter_eq_some_iff, decide_eq_true_eq] at hpending
      have hassembles := h.pending q hpending.1
      rw [hpending.2] at hassembles
      apply h.setLoad
      exact ⟨h.reads l, hassembles⟩
    | none =>
      apply h.setLoad
      exact ⟨h.reads l, le_refl m.revision⟩

/-- The run of a new assembly begins. -/
theorem Inv.start (h : Inv es m) (hnew : m.assemblies p = none) (hrunning : a.progress = .running)
    (hstart : es[n]? = some (.start l p a.checkedAt)) (hlast : es.length ≤ n + 1)
    (hrevision : ∀ r, a.revision = some r → r ≤ m.revision) :
    Inv es (m.setAssembly p a) := by
  apply h.setAssembly
  · intro old hold
    rw [hnew] at hold
    cases hold
  · constructor
    · refine ⟨n, l, hstart, fun r _ b r' hb hbump => ?_⟩
      obtain ⟨hlt, hget⟩ := List.getElem?_eq_some_iff.mp hbump
      have heq : b = n := by omega
      subst heq
      rw [hstart] at hbump
      cases hbump
    · intro result hresult
      rw [hrunning] at hresult
      cases hresult
    · intro k hk
      exact absurd hk (h.absent p hnew k)
  · exact hrevision

omit [LinearOrder ρ] in
theorem Memo.advances_running {revision : Option ρ} (progress : Progress α)
    (hp : m.assemblies p = some ⟨revision, checkedAt, .running⟩) :
    m.Advances p ⟨revision, checkedAt, progress⟩ := by
  intro old hold
  rw [hp, Option.some.injEq] at hold
  subst hold
  exact ⟨rfl, rfl, fun outcome houtcome => by cases houtcome⟩

theorem Inv.resolve (h : Inv es m) {revision : Option ρ} {now : ℤ} {value : α}
    (hp : m.assemblies p = some ⟨revision, checkedAt, .running⟩)
    (hresolve : es[n]? = some (.resolve p value now)) :
    Inv es (m.resolve ttlMs p ⟨revision, checkedAt, .running⟩ value now) := by
  obtain ⟨hbacked, hrevision⟩ := h.assemblies p _ hp
  have hnext : ∀ progress : Progress α,
      progress.outcome = some (some ⟨value, checkedAt⟩) →
      Inv es (m.setAssembly p ⟨revision, checkedAt, progress⟩) := by
    intro progress houtcome
    apply h.setAssembly (Memo.advances_running progress hp)
    · constructor
      · exact hbacked.began
      · intro result hresult
        rw [houtcome, Option.some.injEq, Option.some.injEq] at hresult
        rw [← hresult]
        exact ⟨rfl, n, now, hresolve⟩
      · intro k hk
        cases hbacked.rejected k hk
    · exact hrevision
  cases revision with
  | none => exact hnext _ rfl
  | some revision =>
    have hset := hnext (.assembled (some ⟨value, checkedAt⟩)) rfl
    show Inv es { m.setAssembly p _ with cached := _ }
    apply hset.setCached
    intro c hc
    split_ifs at hc with hsame
    · rw [Option.some.injEq] at hc
      rw [← hc]
      exact ⟨p, _, Function.update_self .., rfl, rfl⟩
    · exact hset.cached c hc

/-- The run rejects; the event itself is recorded afterwards. -/
theorem Inv.reject (h : Inv es m) {revision : Option ρ}
    (hp : m.assemblies p = some ⟨revision, checkedAt, .running⟩) :
    Inv (es ++ [.reject p]) (m.reject p ⟨revision, checkedAt, .running⟩) := by
  obtain ⟨hbacked, hrevision⟩ := h.assemblies p _ hp
  have hnext : ∀ progress : Progress α, progress.outcome = some none →
      Inv (es ++ [.reject p]) (m.setAssembly p ⟨revision, checkedAt, progress⟩) := by
    intro progress houtcome
    have hset : Inv es (m.setAssembly p ⟨revision, checkedAt, progress⟩) := by
      apply h.setAssembly (Memo.advances_running progress hp)
      · constructor
        · exact hbacked.began
        · intro result hresult
          rw [houtcome] at hresult
          cases hresult
        · intro _ _
          exact houtcome
      · exact hrevision
    apply hset.record
    · intro r hr
      cases hr
    · intro l hl
      cases hl
    · intro p' hp'
      rw [Event.reject.injEq] at hp'
      subst hp'
      exact ⟨_, Function.update_self .., houtcome⟩
  cases revision with
  | none => exact hnext _ rfl
  | some revision => exact hnext _ rfl

theorem Inv.settle (h : Inv es m) {revision : Option ρ}
    (hp : m.assemblies p = some ⟨revision, checkedAt, .assembled outcome⟩) :
    Inv es (m.settle p ⟨revision, checkedAt, .assembled outcome⟩ outcome) := by
  obtain ⟨hbacked, hrevision⟩ := h.assemblies p _ hp
  have hset : Inv es (m.setAssembly p ⟨revision, checkedAt, .settled outcome⟩) := by
    apply h.setAssembly
    · intro old hold
      rw [hp, Option.some.injEq] at hold
      subst hold
      exact ⟨rfl, rfl, fun _ houtcome => houtcome⟩
    · exact ⟨hbacked.began, hbacked.resolved, hbacked.rejected⟩
    · exact hrevision
  show Inv es { m.setAssembly p _ with pending := _ }
  apply hset.setPending
  intro q hq
  exact hset.pending q (Option.filter_eq_some_iff.mp hq).1

omit [LinearOrder ρ] in
theorem Memo.assembly_of_settled (h : m.settled p = some outcome) :
    ∃ revision checkedAt, m.assemblies p = some ⟨revision, checkedAt, .settled outcome⟩ := by
  unfold Memo.settled at h
  split at h
  · rename_i revision checkedAt outcome' hp
    rw [Option.some.injEq] at h
    subst h
    exact ⟨revision, checkedAt, hp⟩
  · cases h

theorem Inv.resume (h : Inv es m) (hl : m.loads l = some (.awaiting revision p))
    (hsettled : m.settled p = some outcome) :
    Inv es (m.resume l revision outcome) := by
  unfold Memo.resume
  cases outcome with
  | none => exact h.setLoad trivial
  | some result =>
    apply h.setLoad
    split_ifs with hsame
    · obtain ⟨hreads, a, ha, hrevision⟩ := h.loads l _ hl
      obtain ⟨r, checkedAt, hp⟩ := Memo.assembly_of_settled hsettled
      rw [ha, Option.some.injEq] at hp
      exact (h.assemblies p a ha).1.served hrevision hreads (by rw [hp]; rfl)
    · trivial

theorem Inv.resumeUnmemoised (h : Inv es m) (hl : m.loads l = some (.unmemoised p))
    (hsettled : m.settled p = some outcome) :
    Inv es (m.setLoad l (outcome.elim .threw .returned)) := by
  apply h.setLoad
  cases outcome with
  | none => trivial
  | some result =>
    obtain ⟨a, n, ha, hstart, hfresh⟩ := h.loads l _ hl
    obtain ⟨r, checkedAt, hp⟩ := Memo.assembly_of_settled hsettled
    rw [ha, Option.some.injEq] at hp
    obtain ⟨hchecked, k, now, hresolve⟩ :=
      (h.assemblies p a ha).1.resolved result (by rw [hp]; rfl)
    exact ⟨p, n, k, l, now, by rw [hchecked]; exact hstart, hresolve, hfresh⟩

theorem Inv.quiet (h : Inv es m) (hbump : ∀ r, e ≠ .bump r) (hcall : ∀ l, e ≠ .call l)
    (hreject : ∀ p, e ≠ .reject p) : Inv (es ++ [e]) m :=
  h.record hbump (fun l he => absurd he (hcall l)) fun p he => absurd he (hreject p)

theorem Inv.step (h : Inv es m) (hstep : m.step ttlMs e = some m') : Inv (es ++ [e]) m' := by
  cases e with
  | bump revision =>
    simp only [Memo.step, Option.ite_none_right_eq_some, Option.some.injEq] at hstep
    rw [← hstep.2]
    exact h.bump hstep.1
  | call l =>
    simp only [Memo.step] at hstep
    split at hstep
    · rename_i hnone
      rw [Option.some.injEq] at hstep
      rw [← hstep]
      have hentered : Inv es (m.setLoad l .entered) := h.setLoad trivial
      apply hentered.record
      · simp
      · intro l' hl'
        rw [Event.call.injEq] at hl'
        rw [← hl']
        exact Function.update_self ..
      · simp
    · cases hstep
  | look l now =>
    simp only [Memo.step] at hstep
    split at hstep
    · rw [Option.ite_none_right_eq_some, Option.some.injEq] at hstep
      rw [← hstep.2]
      exact (h.quiet (by simp) (by simp) (by simp)).look now
    · cases hstep
  | start l p now =>
    have hrecorded := h.quiet (e := .start l p now) (by simp) (by simp) (by simp)
    have hlast : (es ++ [.start l p now])[es.length]? = some (.start l p now) :=
      List.getElem?_concat_length ..
    simp only [Memo.step] at hstep
    split at hstep
    · rename_i hl hp
      rw [Option.ite_none_right_eq_some, Option.some.injEq] at hstep
      rw [← hstep.2]
      have hset := hrecorded.start (a := ⟨none, now, .running⟩) hp rfl hlast (by simp) (by simp)
      apply hset.setLoad
      refine ⟨_, es.length, Function.update_self .., hlast, fun j b r hj hb _ => ?_⟩
      obtain ⟨hlt, -⟩ := List.getElem?_eq_some_iff.mp hj
      rw [List.length_append, List.length_singleton] at hlt
      omega
    · rename_i revision hl hp
      rw [Option.some.injEq] at hstep
      rw [← hstep]
      have hok := hrecorded.loads l _ hl
      have hset := hrecorded.start (a := ⟨some revision, now, .running⟩) hp rfl hlast (by simp)
        (fun r hr => by rw [Option.some.injEq] at hr; rw [← hr]; exact hok.2)
      apply hset.setLoad
      exact ⟨hok.1, _, Function.update_self .., rfl⟩
    · cases hstep
  | install l =>
    simp only [Memo.step] at hstep
    split at hstep
    · rename_i revision p hl
      rw [Option.some.injEq] at hstep
      rw [← hstep]
      have hrecorded := h.quiet (e := .install l) (by simp) (by simp) (by simp)
      have hok := hrecorded.loads l _ hl
      have hawaiting : Inv (es ++ [.install l]) (m.setLoad l (.awaiting revision p)) :=
        hrecorded.setLoad hok
      apply hawaiting.setPending
      intro q hq
      rw [Option.some.injEq] at hq
      rw [← hq]
      exact hok.2
    · cases hstep
  | resolve p value now =>
    simp only [Memo.step] at hstep
    split at hstep
    · rename_i revision checkedAt hp
      rw [Option.some.injEq] at hstep
      rw [← hstep]
      exact (h.quiet (by simp) (by simp) (by simp)).resolve hp (List.getElem?_concat_length ..)
    · cases hstep
  | reject p =>
    simp only [Memo.step] at hstep
    split at hstep
    · rename_i revision checkedAt hp
      rw [Option.some.injEq] at hstep
      rw [← hstep]
      exact h.reject hp
    · cases hstep
  | settle p =>
    simp only [Memo.step] at hstep
    split at hstep
    · rename_i revision checkedAt outcome hp
      rw [Option.some.injEq] at hstep
      rw [← hstep]
      exact (h.quiet (by simp) (by simp) (by simp)).settle hp
    · cases hstep
  | resume l =>
    have hrecorded := h.quiet (e := .resume l) (by simp) (by simp) (by simp)
    simp only [Memo.step] at hstep
    split at hstep
    · rename_i revision p hl
      obtain ⟨outcome, hsettled, hm'⟩ := Option.map_eq_some_iff.mp hstep
      rw [← hm']
      exact hrecorded.resume hl hsettled
    · rename_i p hl
      obtain ⟨outcome, hsettled, hm'⟩ := Option.map_eq_some_iff.mp hstep
      rw [← hm']
      exact hrecorded.resumeUnmemoised hl hsettled
    · cases hstep

/-- The states a history leads to from an empty memo. -/
def Reaches (ttlMs : ℤ) (revision : ρ) (es : List (Event ρ α)) (m : Memo ρ α) : Prop :=
  replay (Memo.step ttlMs) es (Memo.init revision) = some m

theorem Reaches.inv (h : Reaches ttlMs revision es m) : Inv es m :=
  replay_records (fun _ _ _ _ hs he => hs.step he) (Inv.init revision) h

/-! ## The cache -/

/-- An event leaves the cache as it is, or the run that resolves writes it for
the revision that holds then. -/
theorem Memo.step_cached (h : m.step ttlMs e = some m') :
    m'.cached = m.cached ∨ ∃ p value now a c, e = .resolve p value now ∧
      m.assemblies p = some a ∧ a.revision = some m.revision ∧ m'.cached = some c ∧
      c.revision = m.revision := by
  cases e with
  | bump revision =>
    simp only [Memo.step, Option.ite_none_right_eq_some, Option.some.injEq] at h
    rw [← h.2]
    exact Or.inl rfl
  | call l =>
    simp only [Memo.step] at h
    split at h <;> cases h
    exact Or.inl rfl
  | look l now =>
    simp only [Memo.step] at h
    split at h
    · rw [Option.ite_none_right_eq_some, Option.some.injEq] at h
      rw [← h.2]
      left
      unfold Memo.look
      split
      · rfl
      · split <;> rfl
    · cases h
  | start l p now =>
    simp only [Memo.step] at h
    split at h
    · rw [Option.ite_none_right_eq_some, Option.some.injEq] at h
      rw [← h.2]
      exact Or.inl rfl
    · cases h
      exact Or.inl rfl
    · cases h
  | install l =>
    simp only [Memo.step] at h
    split at h <;> cases h
    exact Or.inl rfl
  | resolve p value now =>
    simp only [Memo.step] at h
    split at h
    · rename_i revision checkedAt hp
      rw [Option.some.injEq] at h
      rw [← h]
      cases revision with
      | none => exact Or.inl rfl
      | some revision =>
        by_cases hsame : m.revision = revision
        · right
          refine ⟨p, value, now, _, ⟨⟨value, checkedAt⟩, now + ttlMs, revision⟩, rfl, hp,
            by rw [hsame], ?_, hsame.symm⟩
          simp only [Memo.resolve, if_pos hsame]
        · left
          simp only [Memo.resolve, if_neg hsame]
    · cases h
  | reject p =>
    simp only [Memo.step] at h
    split at h
    · cases h
      left
      unfold Memo.reject
      split <;> rfl
    · cases h
  | settle p =>
    simp only [Memo.step] at h
    split at h <;> cases h
    exact Or.inl rfl
  | resume l =>
    simp only [Memo.step] at h
    split at h
    · obtain ⟨outcome, -, hm'⟩ := Option.map_eq_some_iff.mp h
      rw [← hm']
      left
      cases outcome <;> rfl
    · obtain ⟨outcome, -, hm'⟩ := Option.map_eq_some_iff.mp h
      rw [← hm']
      exact Or.inl rfl
    · cases h

/-- A cached result's revision is never ahead of the source's. -/
theorem Inv.cached_le (h : Inv es m) {c : Cached ρ α} (hc : m.cached = some c) :
    c.revision ≤ m.revision := by
  obtain ⟨p, a, ha, hrevision, -⟩ := h.cached c hc
  exact (h.assemblies p a ha).2 c.revision hrevision

theorem Inv.step_cached_le (h : Inv es m) (hstep : m.step ttlMs e = some m') {c : Cached ρ α}
    (hc : m.cached = some c) :
    ∃ c', m'.cached = some c' ∧ c.revision ≤ c'.revision := by
  rcases Memo.step_cached hstep with hsame | ⟨p, value, now, a, c', -, -, -, hc', hrevision⟩
  · exact ⟨c, hsame.trans hc, le_refl _⟩
  · exact ⟨c', hc', hrevision ▸ h.cached_le hc⟩

/-- The cached revision never goes back. -/
theorem Inv.replay_cached_le {es' : List (Event ρ α)} (h : Inv es m)
    (hreplay : replay (Memo.step ttlMs) es' m = some m') {c : Cached ρ α} (hc : m.cached = some c) :
    ∃ c', m'.cached = some c' ∧ c.revision ≤ c'.revision := by
  have hleads : Leads (Memo.step ttlMs) m m' := ⟨es', hreplay⟩
  have hboth := hleads.relates (I := fun m => ∃ es, Inv es m)
    (T := fun m m' => ∀ c, m.cached = some c → ∃ c', m'.cached = some c' ∧
      c.revision ≤ c'.revision)
    (fun m _ c hc => ⟨c, hc, le_refl _⟩)
    (fun a b d hab hbd c hc => by
      obtain ⟨c₁, hc₁, hle⟩ := hab c hc
      obtain ⟨c₂, hc₂, hle'⟩ := hbd c₁ hc₁
      exact ⟨c₂, hc₂, le_trans hle hle'⟩)
    (fun m e m₁ ⟨es, hinv⟩ hstep =>
      ⟨⟨es ++ [e], hinv.step hstep⟩, fun c hc => hinv.step_cached_le hstep hc⟩)
    ⟨es, h⟩
  exact hboth.2 c hc

/-- In every history, a value that `load` returned is a run's that resolved and
that began no earlier than the latest bump before the call; what the cache holds
is a run's that resolved and did not reject; and the cached result of a revision
only ever gives way to one of the same or a later revision, never to a run for
an older one. -/
theorem memoizeByRevision_not_stale (ttlMs : ℤ) (revision : ρ) (es : List (Event ρ α))
    (m : Memo ρ α) (h : Reaches ttlMs revision es m) :
    (∀ l result, m.loads l = some (.returned result) →
      ∃ p, ∃ n k : ℕ, ∃ starter now, es[n]? = some (.start starter p result.checkedAt) ∧
        es[k]? = some (.resolve p result.value now) ∧
        ∀ (j b : ℕ) r, es[j]? = some (.call l) → b < j → es[b]? = some (.bump r) → b < n) ∧
    (∀ c, m.cached = some c → ∃ p, ∃ k : ℕ, ∃ now,
      es[k]? = some (.resolve p c.result.value now) ∧ ∀ k' : ℕ, es[k']? ≠ some (.reject p)) ∧
    (∀ c p a r value now m', m.cached = some c → m.assemblies p = some a →
      a.revision = some r → r < c.revision →
      m.step ttlMs (.resolve p value now) = some m' → m'.cached = some c) ∧
    (∀ c es' m', m.cached = some c → replay (Memo.step ttlMs) es' m = some m' →
      ∃ c', m'.cached = some c' ∧ c.revision ≤ c'.revision) := by
  have hinv := h.inv
  refine ⟨fun l result hl => hinv.loads l _ hl, ?_, ?_, ?_⟩
  · intro c hc
    obtain ⟨p, a, ha, -, houtcome⟩ := hinv.cached c hc
    have hbacked := (hinv.assemblies p a ha).1
    obtain ⟨-, k, now, hresolve⟩ := hbacked.resolved c.result houtcome
    refine ⟨p, k, now, hresolve, fun k' hreject => ?_⟩
    rw [hbacked.rejected k' hreject] at houtcome
    cases houtcome
  · intro c p a r value now m' hc ha hr hlt hstep
    rcases Memo.step_cached hstep with hsame | ⟨p', _, _, a', c', he, ha', hcurrent, -, -⟩
    · exact hsame.trans hc
    · -- The run's revision would be the source's, which the cached one is not beyond.
      rw [Event.resolve.injEq] at he
      rw [← he.1, ha, Option.some.injEq] at ha'
      rw [← ha', hr, Option.some.injEq] at hcurrent
      exact absurd (hinv.cached_le hc) (not_le_of_gt (hcurrent ▸ hlt))
  · intro c es' m' hc hreplay
    exact hinv.replay_cached_le hreplay hc

/-- A save lands while a branding read is under way: the call that waits for it,
and the one that joined it, go round again. -/
def straddledAssembly : List (Event ℕ ℕ) :=
  [.call 0, .look 0 5, .start 0 0 5, .install 0, .call 1, .look 1 6, .bump 1, .resolve 0 7 8,
    .settle 0, .resume 0, .look 0 9, .start 0 1 9, .install 0, .resume 1, .look 1 9,
    .resolve 1 42 10, .settle 1, .resume 1, .resume 0]

theorem memoizeByRevision_not_stale_straddled :
    ∃ m, Reaches 1000 0 straddledAssembly m ∧ m.loads 1 = some (.returned ⟨42, 9⟩) ∧
      ∃ p, ∃ n k : ℕ, ∃ starter now,
        straddledAssembly[n]? = some (.start starter p 9) ∧
        straddledAssembly[k]? = some (.resolve p 42 now) ∧
        ∀ (j b : ℕ) r, straddledAssembly[j]? = some (.call 1) → b < j →
          straddledAssembly[b]? = some (.bump r) → b < n := by
  have hreplay : ∃ m, Reaches 1000 0 straddledAssembly m ∧
      m.loads 1 = some (.returned ⟨42, 9⟩) := ⟨_, rfl, rfl⟩
  obtain ⟨m, hm, hl⟩ := hreplay
  exact ⟨m, hm, hl,
    (memoizeByRevision_not_stale 1000 0 straddledAssembly m hm).1 1 ⟨42, 9⟩ hl⟩

end FerrumNexus.Settings
