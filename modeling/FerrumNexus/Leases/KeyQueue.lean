import Mathlib.Tactic

/-!
# The queue of one process

Before it asks for a lease, `serializePerKey` orders the calls of one key by a
chain of promises: a call runs when the guard of the one before it settles, and
its own guard takes the entry of the key. A promise settles once, and runs its
reactions some time later in an order nobody promises. The section itself ends
when it likes, and as it likes.
-/
namespace FerrumNexus.Leases.KeyQueue

variable {κ V : Type}

/-! ## Promises -/

inductive Outcome (V : Type)
  | fulfilled (value : V)
  | rejected (error : V)
  deriving DecidableEq

/-- The promises there are: `Promise.resolve()`, and the three of a call. -/
inductive Promise
  | ready
  | result (call : ℕ)
  | quiet (call : ℕ)
  | guard (call : ℕ)
  deriving DecidableEq

/-- The callbacks `serializePerKey` passes to `then`. -/
inductive Handler (κ : Type)
  | guarded (call : ℕ)
  | ignore
  | cleanup (key : κ) (guard : Promise)
  deriving DecidableEq

/-- A `then` that has not run. -/
structure Reaction (κ : Type) where
  promise : Promise
  onFulfilled : Handler κ
  onRejected : Option (Handler κ)
  derived : Promise
  deriving DecidableEq

/-- `queues`, the promises, and the sections that are running. `keys` lists the
keys of the calls made so far. -/
structure State (κ V : Type) where
  keys : List κ
  settled : Promise → Option (Outcome V)
  reactions : List (Reaction κ)
  running : List ℕ
  queues : κ → Option Promise

def State.settle (s : State κ V) (promise : Promise) (outcome : Outcome V) : State κ V :=
  { s with settled := Function.update s.settled promise (some outcome) }

section Settle

variable (s : State κ V) (promise : Promise) (outcome : Outcome V)

@[simp] theorem settle_keys : (s.settle promise outcome).keys = s.keys := rfl
@[simp] theorem settle_reactions : (s.settle promise outcome).reactions = s.reactions := rfl
@[simp] theorem settle_running : (s.settle promise outcome).running = s.running := rfl
@[simp] theorem settle_queues : (s.settle promise outcome).queues = s.queues := rfl

@[simp] theorem settle_self : (s.settle promise outcome).settled promise = some outcome :=
  Function.update_self ..

theorem settle_of_ne {other : Promise} (h : other ≠ promise) :
    (s.settle promise outcome).settled other = s.settled other :=
  Function.update_of_ne h ..

end Settle

section Steps

variable [DecidableEq κ] [Inhabited V]

/-- What `undefined` is among the values. -/
def undefined : Outcome V := .fulfilled default

def initial : State κ V where
  keys := []
  settled := Function.update (fun _ => none) .ready (some undefined)
  reactions := []
  running := []
  queues := fun _ => none

/-- `previous.then(guarded, guarded)`. -/
def entering (call : ℕ) (previous : Promise) : Reaction κ :=
  ⟨previous, .guarded call, some (.guarded call), .result call⟩

/-- `result.then(() => undefined, () => undefined)`. -/
def quieting (call : ℕ) : Reaction κ := ⟨.result call, .ignore, some .ignore, .quiet call⟩

/-- The `then` behind it, whose promise is the guard. -/
def leaving (call : ℕ) (key : κ) : Reaction κ :=
  ⟨.quiet call, .cleanup key (.guard call), none, .guard call⟩

/-- `serializePerKey(key, fn)`: the number of the call stands for `fn`. -/
def State.serializePerKey (s : State κ V) (key : κ) : State κ V :=
  let call := s.keys.length
  let previous := (s.queues key).getD .ready
  { s with
    keys := s.keys ++ [key]
    reactions := s.reactions ++ [entering call previous, quieting call, leaving call key]
    queues := Function.update s.queues key (some (.guard call)) }

/-- A callback, or none for this outcome. The promise of a section that begins
settles when it ends. -/
def State.handle (s : State κ V) (outcome : Outcome V) (derived : Promise) :
    Option (Handler κ) → State κ V
  | some (.guarded call) => { s with running := s.running ++ [call] }
  | some .ignore => s.settle derived undefined
  | some (.cleanup key guard) =>
    if s.queues key = some guard then
      { s with queues := Function.update s.queues key none }.settle derived undefined
    else s.settle derived undefined
  | none => s.settle derived outcome

def Reaction.handler (reaction : Reaction κ) : Outcome V → Option (Handler κ)
  | .fulfilled _ => some reaction.onFulfilled
  | .rejected _ => reaction.onRejected

/-- What happens next: a call, a reaction to a promise that is settled, or the
end of a section. -/
inductive Event (κ V : Type)
  | call (key : κ)
  | react (reaction : Reaction κ)
  | finish (call : ℕ) (outcome : Outcome V)

def State.step (s : State κ V) : Event κ V → Option (State κ V)
  | .call key => some (s.serializePerKey key)
  | .react reaction =>
    match s.settled reaction.promise with
    | none => none
    | some outcome =>
      if reaction ∈ s.reactions then
        some ({ s with reactions := s.reactions.erase reaction }.handle outcome reaction.derived
          (Reaction.handler reaction outcome))
      else none
  | .finish call outcome =>
    if call ∈ s.running then
      some ({ s with running := s.running.erase call }.settle (.result call) outcome)
    else none

def run (events : List (Event κ V)) : Option (State κ V) :=
  events.foldlM State.step initial

end Steps

/-- The section of a call has ended. -/
def State.Ended (s : State κ V) (call : ℕ) : Prop := s.settled (.result call) ≠ none

/-- It runs or has ended. -/
def State.Begun (s : State κ V) (call : ℕ) : Prop := call ∈ s.running ∨ s.Ended call

/-- Every reaction to a promise that is settled has run. -/
def State.Quiescent (s : State κ V) : Prop := ∀ reaction ∈ s.reactions, s.settled reaction.promise = none

/-! ## The line of a key -/

section Line

/-- How far each call is: it waits, runs, has ended, its rejection is caught,
its guard has settled. `previous` is the promise it waits for. -/
structure Line (keys : List κ) (stage : ℕ → ℕ) (previous : ℕ → Promise) : Prop where
  fresh : ∀ i, keys.length ≤ i → stage i = 0
  /-- A call waits for the one of its key that was made last, or all of them have left. -/
  waits : ∀ i k, keys[i]? = some k →
    (previous i = .ready ∧ ∀ j < i, keys[j]? = some k → 4 ≤ stage j) ∨
    ∃ j < i, previous i = .guard j ∧ keys[j]? = some k ∧ ∀ l, j < l → l < i → keys[l]? ≠ some k
  order : ∀ i j k, i < j → keys[i]? = some k → keys[j]? = some k → 1 ≤ stage j → 4 ≤ stage i

/-- The entry of a key is the guard of its last call, until that settles. -/
def Entries (keys : List κ) (queues : κ → Option Promise) (stage : ℕ → ℕ) : Prop :=
  ∀ k, (queues k = none ∧ ∀ i, keys[i]? = some k → 4 ≤ stage i) ∨
    ∃ i, queues k = some (.guard i) ∧ keys[i]? = some k ∧ stage i < 4 ∧
      ∀ j, i < j → keys[j]? ≠ some k

variable {keys : List κ} {queues : κ → Option Promise} {stage : ℕ → ℕ} {previous : ℕ → Promise}
  {i : ℕ}

theorem lt_of_key {k : κ} (h : keys[i]? = some k) : i < keys.length :=
  (List.getElem?_eq_some_iff.mp h).1

theorem key_append {k key : κ} :
    (keys ++ [key])[i]? = some k ↔ keys[i]? = some k ∨ i = keys.length ∧ k = key := by
  rcases lt_trichotomy i keys.length with hlt | rfl | hgt
  · have hne : i ≠ keys.length := hlt.ne
    rw [List.getElem?_append_left hlt]
    simp [hne]
  · simp [eq_comm]
  · have hne : i ≠ keys.length := hgt.ne'
    have hnone : (keys ++ [key])[i]? = none := by
      rw [List.getElem?_eq_none_iff, List.length_append, List.length_singleton]
      omega
    have hold : keys[i]? = none := List.getElem?_eq_none hgt.le
    simp [hnone, hold, hne]

/-- A call of a key joins the end of its line. -/
theorem Line.join (h : Line keys stage previous) (hentries : Entries keys queues stage) (key : κ) :
    Line (keys ++ [key]) stage
      (Function.update previous keys.length ((queues key).getD .ready)) := by
  have hfresh : stage keys.length = 0 := h.fresh _ le_rfl
  constructor
  · intro i hi
    rw [List.length_append] at hi
    exact h.fresh i (by omega)
  · intro i k hkey
    rcases key_append.mp hkey with hold | ⟨rfl, rfl⟩
    · have hlt := lt_of_key hold
      rw [Function.update_of_ne hlt.ne]
      rcases h.waits i k hold with ⟨hready, hleft⟩ | ⟨j, hj, hguard, hjkey, hlast⟩
      · refine Or.inl ⟨hready, fun j hj hjkey => hleft j hj ?_⟩
        rwa [List.getElem?_append_left (hj.trans hlt)] at hjkey
      · refine Or.inr ⟨j, hj, hguard, key_append.mpr (Or.inl hjkey), fun l hjl hli => ?_⟩
        rw [List.getElem?_append_left (hli.trans hlt)]
        exact hlast l hjl hli
    · rw [Function.update_self]
      rcases hentries k with ⟨hnone, hleft⟩ | ⟨j, hsome, hjkey, -, hlast⟩
      · refine Or.inl ⟨by rw [hnone]; rfl, fun j hj hjkey => hleft j ?_⟩
        rwa [List.getElem?_append_left hj] at hjkey
      · refine Or.inr ⟨j, lt_of_key hjkey, by rw [hsome]; rfl, key_append.mpr (Or.inl hjkey), ?_⟩
        intro l hjl hl
        rw [List.getElem?_append_left hl]
        exact hlast l hjl
  · intro i j k hij hi hj hstage
    rcases key_append.mp hj with hjold | ⟨rfl, rfl⟩
    · rw [List.getElem?_append_left (hij.trans (lt_of_key hjold))] at hi
      exact h.order i j k hij hi hjold hstage
    · omega

theorem Entries.join [DecidableEq κ] (h : Entries keys queues stage)
    (hline : Line keys stage previous) (key : κ) :
    Entries (keys ++ [key]) (Function.update queues key (some (.guard keys.length))) stage := by
  have hfresh : stage keys.length = 0 := hline.fresh _ le_rfl
  intro k
  by_cases hk : k = key
  · subst hk
    rw [Function.update_self]
    refine Or.inr ⟨keys.length, rfl, by simp, by omega, fun j hj => ?_⟩
    rw [List.getElem?_eq_none (by rw [List.length_append, List.length_singleton]; omega)]
    exact Option.some_ne_none k ∘ Eq.symm
  · rw [Function.update_of_ne hk]
    have hsame (i : ℕ) : (keys ++ [key])[i]? = some k ↔ keys[i]? = some k := by
      simp [key_append, hk]
    rcases h k with ⟨hnone, hleft⟩ | ⟨j, hsome, hjkey, hstage, hlast⟩
    · exact Or.inl ⟨hnone, fun i hi => hleft i ((hsame i).mp hi)⟩
    · exact Or.inr ⟨j, hsome, (hsame j).mpr hjkey, hstage,
        fun l hl hlkey => hlast l hl ((hsame l).mp hlkey)⟩

/-- One call goes on. -/
def bump (stage : ℕ → ℕ) (i : ℕ) : ℕ → ℕ := Function.update stage i (stage i + 1)

@[simp] theorem bump_self (stage : ℕ → ℕ) (i : ℕ) : bump stage i i = stage i + 1 :=
  Function.update_self ..

@[simp] theorem bump_of_ne (stage : ℕ → ℕ) {i j : ℕ} (h : j ≠ i) : bump stage i j = stage j :=
  Function.update_of_ne h ..

theorem le_bump (stage : ℕ → ℕ) (i j : ℕ) : stage j ≤ bump stage i j := by
  by_cases h : j = i
  · subst h
    simp
  · simp [h]

/-- A bound that the call does not reach now. -/
theorem bump_lt {stage : ℕ → ℕ} {n : ℕ} (h : stage i + 1 ≠ n) (j : ℕ) :
    bump stage i j < n ↔ stage j < n := by
  by_cases hji : j = i
  · subst hji
    rw [bump_self]
    omega
  · rw [bump_of_ne _ hji]

/-- A call past its section neither begins nor ends one. -/
theorem bump_eq_one {stage : ℕ → ℕ} (h : 2 ≤ stage i) (j : ℕ) :
    bump stage i j = 1 ↔ stage j = 1 := by
  have hzero := @bump_lt i stage 1 (by omega) j
  have htwo := @bump_lt i stage 2 (by omega) j
  omega

/-- The calls before one that runs have left. -/
theorem Line.before (h : Line keys stage previous) {k : κ} (hi : keys[i]? = some k)
    (hstage : 1 ≤ stage i) : ∀ j < i, keys[j]? = some k → 4 ≤ stage j :=
  fun j hj hjkey => h.order j i k hj hjkey hi hstage

/-- A call whose promise has settled is the next of its key. -/
theorem Line.next (h : Line keys stage previous) {k : κ} (hi : keys[i]? = some k)
    (hprevious : previous i = .ready ∨ ∃ j, previous i = .guard j ∧ 4 ≤ stage j) :
    ∀ j < i, keys[j]? = some k → 4 ≤ stage j := by
  intro l hl hlkey
  rcases h.waits i k hi with ⟨-, hleft⟩ | ⟨j, hj, hguard, hjkey, hlast⟩
  · exact hleft l hl hlkey
  · rw [hguard] at hprevious
    obtain ⟨j', heq, hleft⟩ := hprevious.resolve_left (by simp)
    obtain rfl : j = j' := by simpa using heq
    rcases lt_trichotomy l j with hlt | rfl | hgt
    · exact h.order l j k hlt hlkey hjkey (by omega)
    · exact hleft
    · exact absurd hlkey (hlast l hgt hl)

/-- A call that is the next of its key goes on. -/
theorem Line.advance (h : Line keys stage previous) {k : κ} (hi : keys[i]? = some k)
    (hbefore : ∀ j < i, keys[j]? = some k → 4 ≤ stage j) :
    Line keys (bump stage i) previous := by
  constructor
  · intro j hj
    have hne : j ≠ i := by
      have := lt_of_key hi
      omega
    rw [bump_of_ne _ hne]
    exact h.fresh j hj
  · intro j k' hj
    rcases h.waits j k' hj with ⟨hready, hleft⟩ | hguard
    · exact Or.inl ⟨hready, fun l hl hlkey => (hleft l hl hlkey).trans (le_bump stage i l)⟩
    · exact Or.inr hguard
  · intro l j k' hlj hl hj hstarted
    apply le_trans _ (le_bump stage i l)
    by_cases hji : j = i
    · subst hji
      obtain rfl : k' = k := Option.some_inj.mp (hj.symm.trans hi)
      exact hbefore l hlj hl
    · rw [bump_of_ne _ hji] at hstarted
      exact h.order l j k' hlj hl hj hstarted

/-- Before its guard settles, a call that goes on leaves the entries as they are. -/
theorem Entries.advance (h : Entries keys queues stage) (hstage : stage i < 3) :
    Entries keys queues (bump stage i) := by
  intro k
  rcases h k with ⟨hnone, hleft⟩ | ⟨j, hsome, hjkey, hnot, hlast⟩
  · exact Or.inl ⟨hnone, fun l hl => (hleft l hl).trans (le_bump stage i l)⟩
  · refine Or.inr ⟨j, hsome, hjkey, ?_, hlast⟩
    by_cases hji : j = i
    · subst hji
      rw [bump_self]
      omega
    · rwa [bump_of_ne _ hji]

/-- A call that leaves takes the entry of its key along, if it is its own. -/
theorem Entries.leave [DecidableEq κ] (h : Entries keys queues stage)
    (hline : Line keys stage previous) {k : κ} (hi : keys[i]? = some k) (hstage : stage i = 3) :
    Entries keys (if queues k = some (.guard i) then Function.update queues k none else queues)
      (bump stage i) := by
  have hbefore := hline.before hi (by omega)
  intro k'
  rcases h k' with ⟨hnone, hleft⟩ | ⟨j, hsome, hjkey, hnot, hlast⟩
  · left
    constructor
    · split
      · rw [Function.update_apply, hnone, ite_self]
      · exact hnone
    · exact fun l hl => (hleft l hl).trans (le_bump stage i l)
  · by_cases hji : j = i
    · subst hji
      obtain rfl : k' = k := Option.some_inj.mp (hjkey.symm.trans hi)
      rw [if_pos hsome, Function.update_self]
      refine Or.inl ⟨rfl, fun l hl => ?_⟩
      rcases lt_trichotomy l j with hlt | rfl | hgt
      · exact (hbefore l hlt hl).trans (le_bump stage j l)
      · rw [bump_self]
        omega
      · exact absurd hl (hlast l hgt)
    · refine Or.inr ⟨j, ?_, hjkey, by rwa [bump_of_ne _ hji], hlast⟩
      split
      · rename_i hown
        have hne : k' ≠ k := by
          rintro rfl
          rw [hsome] at hown
          simp at hown
          exact hji hown
        rw [Function.update_of_ne hne, hsome]
      · exact hsome

end Line

/-! ## The promises keep the line -/

section Promises

/-- The reactions of a call at its stage that have not run. -/
def Pending (call : ℕ) (key : κ) (previous : Promise) (stage : ℕ) (reaction : Reaction κ) : Prop :=
  stage < 1 ∧ reaction = entering call previous ∨ stage < 3 ∧ reaction = quieting call ∨
    stage < 4 ∧ reaction = leaving call key

/-- The promises, the reactions and the sections are those of the stages. -/
structure Tracks [Inhabited V] (s : State κ V) (stage : ℕ → ℕ) (previous : ℕ → Promise) : Prop where
  ready : s.settled .ready = some undefined
  result : ∀ i, s.settled (.result i) = none ↔ stage i < 2
  quiet : ∀ i, s.settled (.quiet i) = if stage i < 3 then none else some undefined
  guard : ∀ i, s.settled (.guard i) = if stage i < 4 then none else some undefined
  running : ∀ i, i ∈ s.running ↔ stage i = 1
  runningOnce : s.running.Nodup
  reactions : ∀ r, r ∈ s.reactions ↔ ∃ i k, s.keys[i]? = some k ∧
    Pending i k (previous i) (stage i) r
  reactionsOnce : s.reactions.Nodup
  line : Line s.keys stage previous
  entries : Entries s.keys s.queues stage

variable [Inhabited V] {s : State κ V} {stage : ℕ → ℕ} {previous : ℕ → Promise}

theorem Tracks.initial : Tracks (initial : State κ V) (fun _ => 0) fun _ => .ready := by
  constructor
  all_goals first
    | simp [KeyQueue.initial]; done
    | constructor <;> simp [KeyQueue.initial]
    | intro k; simp [KeyQueue.initial]

/-- The call a reaction is for. -/
def Promise.owner : Promise → Option ℕ
  | .ready => none
  | .result call => some call
  | .quiet call => some call
  | .guard call => some call

variable {i : ℕ}

theorem Pending.owner {n : ℕ} {k : κ} {p : Promise} {r : Reaction κ} (h : Pending i k p n r) :
    r.derived.owner = some i := by
  rcases h with ⟨-, rfl⟩ | ⟨-, rfl⟩ | ⟨-, rfl⟩ <;> rfl

theorem Tracks.call [DecidableEq κ] (h : Tracks s stage previous) (key : κ) :
    Tracks (s.serializePerKey key) stage
      (Function.update previous s.keys.length ((s.queues key).getD .ready)) := by
  have hfresh : stage s.keys.length = 0 := h.line.fresh _ le_rfl
  refine ⟨h.ready, h.result, h.quiet, h.guard, h.running, h.runningOnce, ?_, ?_,
    h.line.join h.entries key, h.entries.join h.line key⟩
  · intro r
    have hnew : r ∈ [entering s.keys.length ((s.queues key).getD .ready), quieting s.keys.length,
        leaving s.keys.length key] ↔
        Pending s.keys.length key ((s.queues key).getD .ready) (stage s.keys.length) r := by
      simp [Pending, hfresh]
    have hsplit : r ∈ (s.serializePerKey key).reactions ↔ r ∈ s.reactions ∨
        Pending s.keys.length key ((s.queues key).getD .ready) (stage s.keys.length) r := by
      rw [← hnew, ← List.mem_append]
      rfl
    rw [hsplit, h.reactions]
    constructor
    · rintro (⟨i, k, hi, hpending⟩ | hpending)
      · refine ⟨i, k, key_append.mpr (Or.inl hi), ?_⟩
        rwa [Function.update_of_ne (lt_of_key hi).ne]
      · refine ⟨s.keys.length, key, key_append.mpr (Or.inr ⟨rfl, rfl⟩), ?_⟩
        rwa [Function.update_self]
    · rintro ⟨i, k, hi, hpending⟩
      rcases key_append.mp hi with hold | ⟨rfl, rfl⟩
      · rw [Function.update_of_ne (lt_of_key hold).ne] at hpending
        exact Or.inl ⟨i, k, hold, hpending⟩
      · rw [Function.update_self] at hpending
        exact Or.inr hpending
  · apply List.nodup_append.mpr
    refine ⟨h.reactionsOnce, by simp [entering, quieting, leaving], ?_⟩
    rintro r hr r' hr' rfl
    obtain ⟨i, k, hi, hpending⟩ := (h.reactions r).mp hr
    have howner : r.derived.owner = some s.keys.length := by
      simp only [List.mem_cons, List.not_mem_nil, or_false] at hr'
      rcases hr' with rfl | rfl | rfl <;> rfl
    rw [hpending.owner] at howner
    exact (lt_of_key hi).ne (Option.some_inj.mp howner)

/-- The reaction that takes a call to its next stage is the one that goes. -/
theorem Tracks.erase [DecidableEq κ] (h : Tracks s stage previous) {k : κ} {reaction : Reaction κ}
    (hi : s.keys[i]? = some k) (hgone : ∀ r, Pending i k (previous i) (stage i + 1) r ↔
      r ≠ reaction ∧ Pending i k (previous i) (stage i) r)
    (howner : reaction.derived.owner = some i) (r : Reaction κ) :
    r ∈ s.reactions.erase reaction ↔ ∃ j k, s.keys[j]? = some k ∧
      Pending j k (previous j) (bump stage i j) r := by
  rw [h.reactionsOnce.mem_erase_iff, h.reactions]
  constructor
  · rintro ⟨hne, j, k', hj, hpending⟩
    refine ⟨j, k', hj, ?_⟩
    by_cases hji : j = i
    · subst hji
      obtain rfl : k' = k := Option.some_inj.mp (hj.symm.trans hi)
      rw [bump_self]
      exact (hgone r).mpr ⟨hne, hpending⟩
    · rwa [bump_of_ne _ hji]
  · rintro ⟨j, k', hj, hpending⟩
    by_cases hji : j = i
    · subst hji
      obtain rfl : k' = k := Option.some_inj.mp (hj.symm.trans hi)
      rw [bump_self] at hpending
      obtain ⟨hne, hold⟩ := (hgone r).mp hpending
      exact ⟨hne, j, k', hj, hold⟩
    · rw [bump_of_ne _ hji] at hpending
      refine ⟨?_, j, k', hj, hpending⟩
      rintro rfl
      rw [hpending.owner] at howner
      exact hji (Option.some_inj.mp howner)

theorem Tracks.keep (h : Tracks s stage previous) (hstage : stage i = 1) (r : Reaction κ) :
    r ∈ s.reactions ↔ ∃ j k, s.keys[j]? = some k ∧ Pending j k (previous j) (bump stage i j) r := by
  rw [h.reactions]
  apply exists_congr
  intro j
  by_cases hji : j = i
  · subst hji
    simp [Pending, hstage]
  · rw [bump_of_ne _ hji]

theorem Tracks.previous_left (h : Tracks s stage previous) {k : κ} (hi : s.keys[i]? = some k)
    (hsettled : s.settled (previous i) ≠ none) :
    previous i = .ready ∨ ∃ j, previous i = .guard j ∧ 4 ≤ stage j := by
  rcases h.line.waits i k hi with ⟨hready, -⟩ | ⟨j, -, hguard, -, -⟩
  · exact Or.inl hready
  · refine Or.inr ⟨j, hguard, ?_⟩
    rw [hguard, h.guard j] at hsettled
    by_contra hnot
    rw [if_pos (by omega)] at hsettled
    exact hsettled rfl

/-- The section of the next call of a key begins. -/
theorem Tracks.enter [DecidableEq κ] (h : Tracks s stage previous) {k : κ}
    (hi : s.keys[i]? = some k) (hstage : stage i = 0)
    (hsettled : s.settled (previous i) ≠ none) :
    Tracks { s with
      reactions := s.reactions.erase (entering i (previous i))
      running := s.running ++ [i] } (bump stage i) previous := by
  have hbefore := h.line.next hi (h.previous_left hi hsettled)
  constructor
  · exact h.ready
  · intro j
    rw [h.result, bump_lt (by omega)]
  · intro j
    simp only [h.quiet, bump_lt (show stage i + 1 ≠ 3 by omega)]
  · intro j
    simp only [h.guard, bump_lt (show stage i + 1 ≠ 4 by omega)]
  · intro j
    rw [List.mem_append, List.mem_singleton, h.running]
    by_cases hji : j = i
    · subst hji
      rw [bump_self]
      omega
    · simp [hji]
  · have hnot : i ∉ s.running := by
      rw [h.running]
      omega
    exact List.nodup_append.mpr ⟨h.runningOnce, List.nodup_singleton i, by
      rintro j hj j' hj' rfl
      rw [List.mem_singleton] at hj'
      exact hnot (hj' ▸ hj)⟩
  · apply h.erase hi _ rfl
    intro r
    simp only [Pending, hstage]
    constructor
    · rintro (⟨hlt, -⟩ | ⟨-, rfl⟩ | ⟨-, rfl⟩)
      · omega
      · exact ⟨by simp [entering, quieting], by simp⟩
      · exact ⟨by simp [entering, leaving], by simp⟩
    · rintro ⟨hne, ⟨-, rfl⟩ | ⟨-, rfl⟩ | ⟨-, rfl⟩⟩
      · exact absurd rfl hne
      · simp
      · simp
  · exact h.reactionsOnce.erase _
  · exact h.line.advance hi hbefore
  · exact h.entries.advance (by omega)

/-- The section of a call ends. -/
theorem Tracks.finish (h : Tracks s stage previous) (hi : i ∈ s.running) (outcome : Outcome V) :
    Tracks ({ s with running := s.running.erase i }.settle (.result i) outcome) (bump stage i)
      previous := by
  have hstage := (h.running i).mp hi
  obtain ⟨k, hkey⟩ : ∃ k, s.keys[i]? = some k := by
    by_contra hnone
    have hlength : s.keys.length ≤ i := by
      rw [← List.getElem?_eq_none_iff]
      exact Option.eq_none_iff_forall_ne_some.mpr fun k hk => hnone ⟨k, hk⟩
    have := h.line.fresh i hlength
    omega
  constructor
  · exact h.ready
  · intro j
    by_cases hji : j = i
    · subst hji
      simp [hstage]
    · have hne : Promise.result j ≠ .result i := by simpa using hji
      rw [settle_of_ne _ _ _ hne, bump_of_ne _ hji]
      exact h.result j
  · intro j
    rw [settle_of_ne _ _ _ (by simp)]
    simp only [h.quiet, bump_lt (show stage i + 1 ≠ 3 by omega)]
  · intro j
    rw [settle_of_ne _ _ _ (by simp)]
    simp only [h.guard, bump_lt (show stage i + 1 ≠ 4 by omega)]
  · intro j
    rw [settle_running, h.runningOnce.mem_erase_iff, h.running]
    by_cases hji : j = i
    · subst hji
      rw [bump_self]
      omega
    · simp [hji]
  · exact h.runningOnce.erase i
  · exact h.keep hstage
  · exact h.reactionsOnce
  · exact h.line.advance hkey (h.line.before hkey (by omega))
  · exact h.entries.advance (by omega)

/-- The outcome of a section is caught. -/
theorem Tracks.quieten [DecidableEq κ] (h : Tracks s stage previous) {k : κ}
    (hi : s.keys[i]? = some k) (hstage : stage i = 2) :
    Tracks ({ s with reactions := s.reactions.erase (quieting i) }.settle (.quiet i) undefined)
      (bump stage i) previous := by
  constructor
  · exact h.ready
  · intro j
    rw [settle_of_ne _ _ _ (by simp), h.result, bump_lt (by omega)]
  · intro j
    by_cases hji : j = i
    · subst hji
      rw [bump_self, if_neg (by omega), settle_self]
    · have hne : Promise.quiet j ≠ .quiet i := by simpa using hji
      rw [settle_of_ne _ _ _ hne, bump_of_ne _ hji]
      exact h.quiet j
  · intro j
    rw [settle_of_ne _ _ _ (by simp)]
    simp only [h.guard, bump_lt (show stage i + 1 ≠ 4 by omega)]
  · intro j
    rw [settle_running, h.running, bump_eq_one (by omega)]
  · exact h.runningOnce
  · apply h.erase hi _ rfl
    intro r
    simp only [Pending, hstage]
    constructor
    · rintro (⟨hlt, -⟩ | ⟨hlt, -⟩ | ⟨-, rfl⟩)
      · omega
      · omega
      · exact ⟨by simp [quieting, leaving], by simp⟩
    · rintro ⟨hne, ⟨hlt, -⟩ | ⟨-, rfl⟩ | ⟨-, rfl⟩⟩
      · omega
      · exact absurd rfl hne
      · simp
  · exact h.reactionsOnce.erase _
  · exact h.line.advance hi (h.line.before hi (by omega))
  · exact h.entries.advance (by omega)

/-- The guard of a call settles, and looks after the entry of its key. -/
theorem Tracks.leave [DecidableEq κ] (h : Tracks s stage previous) {k : κ}
    (hi : s.keys[i]? = some k) (hstage : stage i = 3) :
    Tracks ({ s with
      reactions := s.reactions.erase (leaving i k)
      queues :=
        if s.queues k = some (.guard i) then Function.update s.queues k none else s.queues
      : State κ V }.settle (.guard i) undefined) (bump stage i) previous := by
  constructor
  · exact h.ready
  · intro j
    rw [settle_of_ne _ _ _ (by simp), h.result, bump_lt (by omega)]
  · intro j
    rw [settle_of_ne _ _ _ (by simp)]
    simp only [h.quiet, bump_lt (show stage i + 1 ≠ 3 by omega)]
  · intro j
    by_cases hji : j = i
    · subst hji
      have hleft : ¬ stage j + 1 < 4 := by omega
      rw [bump_self, if_neg hleft, settle_self]
    · have hne : Promise.guard j ≠ .guard i := by simpa using hji
      rw [settle_of_ne _ _ _ hne, bump_of_ne _ hji]
      exact h.guard j
  · intro j
    rw [settle_running, h.running, bump_eq_one (by omega)]
  · exact h.runningOnce
  · apply h.erase hi _ rfl
    intro r
    simp only [Pending, hstage]
    constructor
    · rintro (⟨hlt, -⟩ | ⟨hlt, -⟩ | ⟨hlt, -⟩) <;> omega
    · rintro ⟨hne, ⟨hlt, -⟩ | ⟨hlt, -⟩ | ⟨-, rfl⟩⟩
      · omega
      · omega
      · exact absurd rfl hne
  · exact h.reactionsOnce.erase _
  · exact h.line.advance hi (h.line.before hi (by omega))
  · exact h.entries.leave h.line hi hstage

/-- A reaction that runs is one of the three of its call, and its call goes on by one stage. -/
theorem Tracks.react [DecidableEq κ] (h : Tracks s stage previous) {reaction : Reaction κ}
    {outcome : Outcome V} (hsettled : s.settled reaction.promise = some outcome)
    (hmem : reaction ∈ s.reactions) :
    ∃ i, Tracks ({ s with reactions := s.reactions.erase reaction }.handle outcome reaction.derived
      (Reaction.handler reaction outcome)) (bump stage i) previous ∧
      ∀ j, ({ s with reactions := s.reactions.erase reaction }.handle outcome reaction.derived
        (Reaction.handler reaction outcome)).settled (.result j) = s.settled (.result j) := by
  obtain ⟨i, k, hi, hpending⟩ := (h.reactions reaction).mp hmem
  refine ⟨i, ?_⟩
  rcases hpending with ⟨hstage, rfl⟩ | ⟨hstage, rfl⟩ | ⟨hstage, rfl⟩
  · have hhandler : Reaction.handler (entering i (previous i) : Reaction κ) outcome =
        some (.guarded i) := by
      cases outcome <;> rfl
    have hready : s.settled (previous i) ≠ none := Option.ne_none_iff_exists'.mpr ⟨outcome, hsettled⟩
    rw [hhandler]
    exact ⟨h.enter hi (by omega) hready, fun j => rfl⟩
  · have hhandler : Reaction.handler (quieting i : Reaction κ) outcome = some .ignore := by
      cases outcome <;> rfl
    have hended : ¬ stage i < 2 := by
      rw [← h.result]
      exact Option.ne_none_iff_exists'.mpr ⟨outcome, hsettled⟩
    rw [hhandler]
    exact ⟨h.quieten hi (by omega), fun j => settle_of_ne _ _ _ (by simp [quieting])⟩
  · have hquiet : s.settled (.quiet i) = some outcome := hsettled
    rw [h.quiet] at hquiet
    split at hquiet
    · simp at hquiet
    · obtain rfl : undefined = outcome := Option.some_inj.mp hquiet
      have hleave := h.leave hi (by omega)
      have hhandled : ({ s with reactions := s.reactions.erase (leaving i k) } : State κ V).handle
          undefined (.guard i) (some (.cleanup k (.guard i))) = ({ s with
            reactions := s.reactions.erase (leaving i k)
            queues :=
              if s.queues k = some (.guard i) then Function.update s.queues k none else s.queues
            : State κ V }.settle (.guard i) undefined) := by
        by_cases hown : s.queues k = some (.guard i) <;> simp [State.handle, hown]
      refine ⟨hhandled ▸ hleave, fun j => ?_⟩
      have hresult := congrArg (fun s : State κ V => s.settled (.result j)) hhandled
      exact hresult.trans (settle_of_ne _ _ _ (by simp))

theorem Tracks.step [DecidableEq κ] (h : Tracks s stage previous) {event : Event κ V}
    {s' : State κ V} (hstep : s.step event = some s') :
    ∃ stage' previous', Tracks s' stage' previous' := by
  cases event with
  | call key =>
    obtain rfl : s.serializePerKey key = s' := Option.some_inj.mp hstep
    exact ⟨_, _, h.call key⟩
  | react reaction =>
    cases hsettled : s.settled reaction.promise with
    | none => simp [State.step, hsettled] at hstep
    | some outcome =>
      simp only [State.step, hsettled, Option.ite_none_right_eq_some, Option.some_inj] at hstep
      obtain ⟨hmem, rfl⟩ := hstep
      obtain ⟨i, htracks, -⟩ := h.react hsettled hmem
      exact ⟨_, _, htracks⟩
  | finish call outcome =>
    simp only [State.step, Option.ite_none_right_eq_some, Option.some_inj] at hstep
    obtain ⟨hrunning, rfl⟩ := hstep
    exact ⟨_, _, h.finish hrunning outcome⟩

/-- Only the end of a section settles a result. -/
theorem Tracks.result_step [DecidableEq κ] (h : Tracks s stage previous) {event : Event κ V}
    {s' : State κ V} (hstep : s.step event = some s') (i : ℕ) (outcome : Outcome V) :
    s'.settled (.result i) = some outcome ↔
      s.settled (.result i) = some outcome ∨ event = .finish i outcome := by
  cases event with
  | call key =>
    obtain rfl : s.serializePerKey key = s' := Option.some_inj.mp hstep
    simp [State.serializePerKey]
  | react reaction =>
    cases hsettled : s.settled reaction.promise with
    | none => simp [State.step, hsettled] at hstep
    | some outcome' =>
      simp only [State.step, hsettled, Option.ite_none_right_eq_some, Option.some_inj] at hstep
      obtain ⟨hmem, rfl⟩ := hstep
      obtain ⟨-, -, hresult⟩ := h.react hsettled hmem
      simp [hresult i]
  | finish call outcome' =>
    simp only [State.step, Option.ite_none_right_eq_some, Option.some_inj] at hstep
    obtain ⟨hrunning, rfl⟩ := hstep
    by_cases hcall : i = call
    · subst hcall
      have hnone : s.settled (.result i) = none := by
        rw [h.result, (h.running i).mp hrunning]
        omega
      rw [settle_self, hnone]
      simp
    · have hne : Promise.result i ≠ .result call := by simpa using hcall
      rw [settle_of_ne _ _ _ hne]
      simp [Ne.symm hcall]

theorem run_append [DecidableEq κ] (events : List (Event κ V)) (event : Event κ V) :
    run (events ++ [event]) = (run events).bind fun s => s.step event := by
  simp [run, List.foldlM_append]

theorem tracks_of_run [DecidableEq κ] {events : List (Event κ V)} (h : run events = some s) :
    (∃ stage previous, Tracks s stage previous) ∧
      ∀ i outcome, s.settled (.result i) = some outcome ↔ .finish i outcome ∈ events := by
  induction events using List.reverseRecOn generalizing s with
  | nil =>
    obtain rfl : KeyQueue.initial = s := Option.some_inj.mp h
    exact ⟨⟨_, _, Tracks.initial⟩, by simp [KeyQueue.initial]⟩
  | append_singleton events event ih =>
    rw [run_append, Option.bind_eq_some_iff] at h
    obtain ⟨before, hbefore, hstep⟩ := h
    obtain ⟨⟨stage, previous, htracks⟩, hresult⟩ := ih hbefore
    refine ⟨htracks.step hstep, fun i outcome => ?_⟩
    rw [htracks.result_step hstep, hresult, List.mem_append, List.mem_singleton, eq_comm (a := event)]

end Promises

/-! ## What the queue does -/

section Service

variable [Inhabited V] {s : State κ V} {stage : ℕ → ℕ} {previous : ℕ → Promise}

theorem Tracks.ended_iff (h : Tracks s stage previous) (i : ℕ) : s.Ended i ↔ 2 ≤ stage i := by
  rw [State.Ended, Ne, h.result, not_lt]

theorem Tracks.begun_iff (h : Tracks s stage previous) (i : ℕ) : s.Begun i ↔ 1 ≤ stage i := by
  rw [State.Begun, h.ended_iff, h.running]
  omega

/-- Where nothing is left to react to, a call waits, runs or has left. -/
theorem Tracks.settled_stage (h : Tracks s stage previous) (hquiescent : s.Quiescent) {i : ℕ}
    {k : κ} (hi : s.keys[i]? = some k) : stage i < 2 ∨ 4 ≤ stage i := by
  by_contra hbetween
  by_cases hquieting : stage i < 3
  · have hmem : quieting i ∈ s.reactions :=
      (h.reactions _).mpr ⟨i, k, hi, Or.inr (Or.inl ⟨hquieting, rfl⟩)⟩
    have hnone := (h.result i).mp (hquiescent _ hmem)
    omega
  · have hmem : leaving i k ∈ s.reactions :=
      (h.reactions _).mpr ⟨i, k, hi, Or.inr (Or.inr ⟨by omega, rfl⟩)⟩
    have hnone : s.settled (.quiet i) = none := hquiescent _ hmem
    rw [h.quiet, if_neg hquieting] at hnone
    simp at hnone

theorem Tracks.begun_of_quiescent (h : Tracks s stage previous) (hquiescent : s.Quiescent)
    {i : ℕ} {k : κ} (hi : s.keys[i]? = some k) :
    s.Begun i ↔ ∀ j < i, s.keys[j]? = some k → s.Ended j := by
  rw [h.begun_iff]
  constructor
  · intro hbegun j hj hjkey
    rw [h.ended_iff]
    have := h.line.before hi hbegun j hj hjkey
    omega
  · intro hended
    by_contra hwaiting
    have hmem : entering i (previous i) ∈ s.reactions :=
      (h.reactions _).mpr ⟨i, k, hi, Or.inl ⟨by omega, rfl⟩⟩
    have hnone : s.settled (previous i) = none := hquiescent _ hmem
    rcases h.line.waits i k hi with ⟨hready, -⟩ | ⟨j, hj, hguard, hjkey, -⟩
    · rw [hready, h.ready] at hnone
      simp at hnone
    · have hdone := (h.ended_iff j).mp (hended j hj hjkey)
      have hleft := (h.settled_stage hquiescent hjkey).resolve_left (by omega)
      rw [hguard, h.guard, if_neg (by omega)] at hnone
      simp at hnone

theorem Tracks.entry_of_quiescent (h : Tracks s stage previous) (hquiescent : s.Quiescent) (k : κ) :
    s.queues k = none ↔ ∀ i, s.keys[i]? = some k → s.Ended i := by
  rcases h.entries k with ⟨hnone, hleft⟩ | ⟨i, hsome, hi, hnot, -⟩
  · simp only [hnone, true_iff]
    intro i hi
    have := hleft i hi
    rw [h.ended_iff]
    omega
  · rw [hsome]
    constructor
    · intro hnone
      simp at hnone
    · intro hended
      have hdone := (h.ended_iff i).mp (hended i hi)
      have := h.settled_stage hquiescent hi
      omega

theorem handle_reactions [DecidableEq κ] (s : State κ V) (outcome : Outcome V) (derived : Promise)
    (handler : Option (Handler κ)) : (s.handle outcome derived handler).reactions = s.reactions := by
  cases handler with
  | none => rfl
  | some handler =>
    cases handler with
    | guarded call => rfl
    | ignore => rfl
    | cleanup key guard =>
      unfold State.handle
      by_cases hown : s.queues key = some guard <;> simp [hown]

/-- A reaction runs once. -/
theorem react_length [DecidableEq κ] {s' : State κ V} {reaction : Reaction κ}
    (h : s.step (.react reaction) = some s') : s'.reactions.length + 1 = s.reactions.length := by
  cases hsettled : s.settled reaction.promise with
  | none => simp [State.step, hsettled] at h
  | some outcome =>
    simp only [State.step, hsettled, Option.ite_none_right_eq_some, Option.some_inj] at h
    obtain ⟨hmem, rfl⟩ := h
    rw [handle_reactions, List.length_erase_of_mem hmem]
    exact Nat.sub_add_cancel (List.length_pos_of_mem hmem)

/-- The reactions run dry by themselves. -/
theorem exists_quiescent [DecidableEq κ] (s : State κ V) :
    ∃ (reactions : List (Reaction κ)) (s' : State κ V),
      (reactions.map Event.react).foldlM State.step s = some s' ∧ s'.Quiescent := by
  induction hlength : s.reactions.length generalizing s with
  | zero =>
    refine ⟨[], s, rfl, fun reaction hmem => ?_⟩
    rw [List.eq_nil_of_length_eq_zero hlength] at hmem
    exact absurd hmem List.not_mem_nil
  | succ n ih =>
    by_cases hquiescent : s.Quiescent
    · exact ⟨[], s, rfl, hquiescent⟩
    · rw [State.Quiescent, not_forall] at hquiescent
      obtain ⟨reaction, hready⟩ := hquiescent
      obtain ⟨hmem, hsettled⟩ := Classical.not_imp.mp hready
      obtain ⟨outcome, houtcome⟩ := Option.ne_none_iff_exists'.mp hsettled
      obtain ⟨s', hstep⟩ : ∃ s', s.step (.react reaction) = some s' := by
        simp [State.step, houtcome, hmem]
      have hless := react_length hstep
      obtain ⟨reactions, s'', hrun, hdry⟩ := ih s' (by omega)
      refine ⟨reaction :: reactions, s'', ?_, hdry⟩
      rw [List.map_cons, List.foldlM_cons, hstep]
      exact hrun

end Service

/-- The sections of a key run one after the other, in the order of their calls, and each caller gets
what its own section came to. Once the reactions have run, which takes one turn each, a call has
begun if and only if the calls of its own key before it have ended, however they ended, and a key
has an entry if and only if one of its calls has not. Until then the entry is its last call's. -/
theorem queue_serves_in_order [DecidableEq κ] [Inhabited V] (events : List (Event κ V))
    (s : State κ V) (h : run events = some s) :
    (∀ i j k, i < j → s.keys[i]? = some k → s.keys[j]? = some k → s.Begun j → s.Ended i) ∧
    (∀ i j k, s.keys[i]? = some k → s.keys[j]? = some k → i ∈ s.running → j ∈ s.running → i = j) ∧
    (∀ i outcome, s.settled (.result i) = some outcome ↔ .finish i outcome ∈ events) ∧
    (∀ reaction s', s.step (.react reaction) = some s' →
      s'.reactions.length + 1 = s.reactions.length) ∧
    (∃ (reactions : List (Reaction κ)) (s' : State κ V),
      (reactions.map Event.react).foldlM State.step s = some s' ∧ s'.Quiescent) ∧
    (s.Quiescent → ∀ k,
      (∀ i, s.keys[i]? = some k → (s.Begun i ↔ ∀ j < i, s.keys[j]? = some k → s.Ended j)) ∧
      (s.queues k = none ↔ ∀ i, s.keys[i]? = some k → s.Ended i)) ∧
    ∀ i k, s.keys[i]? = some k → ¬ s.Ended i → ∃ last, s.queues k = some (.guard last) ∧
      s.keys[last]? = some k ∧ ∀ j, last < j → s.keys[j]? ≠ some k := by
  obtain ⟨⟨stage, previous, htracks⟩, hresult⟩ := tracks_of_run h
  have hserial (i j : ℕ) (k : κ) (hij : i < j) (hi : s.keys[i]? = some k)
      (hj : s.keys[j]? = some k) (hbegun : s.Begun j) : 4 ≤ stage i :=
    htracks.line.before hj ((htracks.begun_iff j).mp hbegun) i hij hi
  refine ⟨?_, ?_, hresult, fun reaction s' hstep => react_length hstep, exists_quiescent s, ?_, ?_⟩
  · intro i j k hij hi hj hbegun
    have hleft := hserial i j k hij hi hj hbegun
    rw [htracks.ended_iff]
    omega
  · intro i j k hi hj hirun hjrun
    have histage := (htracks.running i).mp hirun
    have hjstage := (htracks.running j).mp hjrun
    rcases lt_trichotomy i j with hlt | heq | hgt
    · have := hserial i j k hlt hi hj (Or.inl hjrun)
      omega
    · exact heq
    · have := hserial j i k hgt hj hi (Or.inl hirun)
      omega
  · intro hquiescent k
    exact ⟨fun i hi => htracks.begun_of_quiescent hquiescent hi,
      htracks.entry_of_quiescent hquiescent k⟩
  · intro i k hi hnot
    rw [htracks.ended_iff] at hnot
    rcases htracks.entries k with ⟨-, hleft⟩ | ⟨last, hsome, hlast, -, hnone⟩
    · have := hleft i hi
      omega
    · exact ⟨last, hsome, hlast, hnone⟩

/-- Two calls of one key; the section of the first is rejected, and the second begins. -/
def twoCalls : List (Event ℕ ℕ) :=
  [.call 7, .call 7, .react (entering 0 .ready), .finish 0 (.rejected 1), .react (quieting 0),
    .react (leaving 0 7), .react (entering 1 (.guard 0))]

theorem second_begins_after_rejection :
    ∃ s, run twoCalls = some s ∧ 1 ∈ s.running ∧ s.queues 7 = some (.guard 1) ∧
      (s.settled (.result 0) = some (.rejected 1) ↔ .finish 0 (.rejected 1) ∈ twoCalls) := by
  obtain ⟨s, hrun, hrunning, hentry⟩ : ∃ s, run twoCalls = some s ∧ 1 ∈ s.running ∧
      s.queues 7 = some (.guard 1) := ⟨_, rfl, by decide, by decide⟩
  exact ⟨s, hrun, hrunning, hentry, (queue_serves_in_order twoCalls s hrun).2.2.1 0 (.rejected 1)⟩

end FerrumNexus.Leases.KeyQueue
