import FerrumNexus.Sequences.OrderedMap

/-!
# Settings that are bound to their rows, and the keys they are under

An encrypted setting is sealed: its blob opens under the master key that sealed
it, a `v2` blob for its own row alone and an old `v1` blob for any.
`bindLegacyEncryptedSettings` turns the `v1` rows into `v2` rows once, in a
transaction that a lease fences, and records it as a row of the audit log;
`rotateEncryptedSettings` seals every row under another key. A statement of a
transaction keeps the row it changed to itself until the transaction ends.
-/
namespace FerrumNexus.Settings

open Sequences

/-! ## Sealed values -/

/-- What the value of a row can be. `other` is any text that no key opens. -/
inductive Stored (K M P V : Type)
  | v1 (master : M) (iv : ℕ) (plain : P)
  | v2 (master : M) (key : K) (iv : ℕ) (plain : P)
  | other (value : V)
  deriving DecidableEq

/-- `isLegacySettingBlob`. -/
def Stored.isLegacy {K M P V : Type} : Stored K M P V → Bool
  | .v1 _ _ _ => true
  | _ => false

/-- A row of `app_settings`. `stamp` is history: the write its value is from. -/
structure SettingRow (K M P V : Type) where
  value : Stored K M P V
  encrypted : Bool
  stamp : ℕ
  deriving DecidableEq

variable {K M P V : Type} [DecidableEq K] [DecidableEq M]

/-- `encryptJson`. -/
def encryptJson (master : M) (key : K) (iv : ℕ) (plain : P) : Stored K M P V :=
  .v2 master key iv plain

/-- `decryptJson`, `none` where it throws. -/
def decryptJson (master : M) (key : K) : Stored K M P V → Option P
  | .v2 sealed row _ plain => if sealed = master ∧ row = key then some plain else none
  | _ => none

/-- `decryptLegacySetting`. -/
def decryptLegacySetting (master : M) (key : K) : Stored K M P V → Option P
  | .v1 sealed _ plain => if sealed = master then some plain else none
  | blob => decryptJson master key blob

/-- The rows, in the order `settings.all()` lists them in. -/
abbrev Rows (K M P V : Type) := OrderedMap K (SettingRow K M P V)

/-- A row that was opened, and what it is to hold. -/
structure Plan (K M P V : Type) where
  key : K
  blob : Stored K M P V
  bound : Stored K M P V
  stamp : ℕ

/-- A row that `decrypt` opens, sealed under another key. -/
def planRow (decrypt : K → Stored K M P V → Option P) (master : M) (iv : K → ℕ)
    (row : K × SettingRow K M P V) : Option (Plan K M P V) :=
  (decrypt row.1 row.2.value).map fun plain =>
    ⟨row.1, row.2.value, encryptJson master row.1 (iv row.1) plain, row.2.stamp⟩

/-- The plans for some rows, or the keys of those that do not open. -/
def planRows (decrypt : K → Stored K M P V → Option P) (master : M) (iv : K → ℕ)
    (rows : List (K × SettingRow K M P V)) : Except (List K) (List (Plan K M P V)) :=
  let unreadable := rows.filter fun row => (planRow decrypt master iv row).isNone
  if unreadable = [] then .ok (rows.filterMap (planRow decrypt master iv))
  else .error (unreadable.map Prod.fst)

/-- Several rows are written, at one instant. -/
def writePlans (rows : Rows K M P V) (stamp : ℕ) (plans : List (Plan K M P V)) : Rows K M P V :=
  plans.foldl (fun rows plan => rows.set plan.key ⟨plan.bound, true, stamp⟩) rows

/-! ## Rotation -/

/-- How a rotation opens a row: an old blob only before the binding is recorded. -/
def rotationDecrypt (recorded : Bool) (previous : M) (key : K) : Stored K M P V → Option P :=
  if recorded then decryptJson previous key else decryptLegacySetting previous key

/-- What a rotation writes, from the rows it has read. -/
def rotationPlans (rows : Rows K M P V) (recorded : Bool) (previous next : M) (iv : K → ℕ) :
    Except (List K) (List (Plan K M P V)) :=
  planRows (rotationDecrypt recorded previous) next iv
    (rows.entries.filter fun row => row.2.encrypted)

/-- `rotateEncryptedSettings`, with nothing else going on: what the rows are then, or the keys of
those that did not open. -/
def rotateEncryptedSettings (rows : Rows K M P V) (recorded : Bool) (previous next : M)
    (iv : K → ℕ) (stamp : ℕ) : Except (List K) (Rows K M P V) :=
  (rotationPlans rows recorded previous next iv).map (writePlans rows stamp)

/-! ## Everything at once -/

/-- How far a call is. -/
inductive Phase (K M P V : Type)
  | idle
  | acquired (master : M)
  | listed (master : M) (legacy : List (K × SettingRow K M P V))
  | planned (plans : List (Plan K M P V))
  | replacing (bound rest : List (Plan K M P V))
  | finished
  | rotating (previous next : M) (rows : Rows K M P V) (writes : K → ℕ)
  | rewriting (rows : Rows K M P V) (plans : List (Plan K M P V)) (writes : K → ℕ)
  | rotated
  | failed

/-- What a row holds, whatever it is sealed under. -/
inductive Content (K M P V : Type)
  | plain (value : Stored K M P V)
  | secret (plain : P)
  | stuck (value : Stored K M P V)
  deriving DecidableEq

def Stored.content (key : K) : Stored K M P V → Content K M P V
  | .v1 _ _ plain => .secret plain
  | .v2 master row iv plain =>
    if row = key then .secret plain else .stuck (.v2 master row iv plain)
  | .other value => .stuck (.other value)

def SettingRow.content (key : K) (row : SettingRow K M P V) : Content K M P V :=
  if row.encrypted then row.value.content key else .plain row.value

/-- The rows, the audit rows of the binding, its lease, the rows a transaction has changed and not
committed, and the calls of all instances. The rest is history: the writes so far, when the binding
was recorded, the writes whose `v1` value became a `v2` value, and for each key how often it was
saved or deleted, what that left, and whether a rotation has since put an older value there. -/
structure BindingState (K M P V : Type) where
  rows : Rows K M P V
  markers : ℕ
  holder : Option ℕ
  locked : K → Option ℕ
  phase : ℕ → Phase K M P V
  clock : ℕ
  markedAt : Option ℕ
  converted : List ℕ
  writes : K → ℕ
  saved : K → Option (Content K M P V)
  overwritten : K → Bool

namespace BindingState

variable [DecidableEq P] [DecidableEq V]

def start (rows : Rows K M P V) (recorded : Bool) : BindingState K M P V :=
  let clock := (rows.entries.map fun row => row.2.stamp).sum
  { rows := rows
    markers := if recorded then 1 else 0
    holder := none
    locked := fun _ => none
    phase := fun _ => .idle
    clock := clock
    markedAt := if recorded then some clock else none
    converted := []
    writes := fun _ => 0
    saved := fun key => (rows.get key).map (SettingRow.content key)
    overwritten := fun _ => false }

def goTo (s : BindingState K M P V) (call : ℕ) (phase : Phase K M P V) : BindingState K M P V :=
  { s with phase := Function.update s.phase call phase }

/-- A transaction has changed a row. -/
def lock (s : BindingState K M P V) (key : K) (call : ℕ) : BindingState K M P V :=
  { s with locked := Function.update s.locked key (some call) }

/-- The transaction of a call ends. -/
def unlock (s : BindingState K M P V) (call : ℕ) : BindingState K M P V :=
  { s with locked := fun key => if s.locked key = some call then none else s.locked key }

/-- A setting is saved, or written by whoever can write the table. -/
def write (s : BindingState K M P V) (key : K) (value : Stored K M P V) (encrypted : Bool) :
    BindingState K M P V :=
  let row : SettingRow K M P V := ⟨value, encrypted, s.clock + 1⟩
  { s with
    rows := s.rows.set key row
    clock := s.clock + 1
    writes := Function.update s.writes key (s.writes key + 1)
    saved := Function.update s.saved key (some (row.content key))
    overwritten := Function.update s.overwritten key false }

def delete (s : BindingState K M P V) (key : K) : BindingState K M P V :=
  { s with
    rows := s.rows.delete key
    writes := Function.update s.writes key (s.writes key + 1)
    saved := Function.update s.saved key none
    overwritten := Function.update s.overwritten key false }

/-- The transaction of `bindLegacyEncryptedSettings` commits: the values it replaced, and the audit
row. -/
def bind (s : BindingState K M P V) (bound : List (Plan K M P V)) : BindingState K M P V :=
  { s with
    rows := writePlans s.rows (s.clock + 1) bound
    markers := s.markers + 1
    clock := s.clock + 1
    markedAt := some s.clock
    converted := s.converted ++ bound.filterMap fun plan =>
      (s.rows.get plan.key).map fun row => row.stamp }

/-- Whether a rotation writes a row that was saved or deleted since it read. -/
def overwrites (s : BindingState K M P V) (plans : List (Plan K M P V)) (writes : K → ℕ) (key : K) :
    Bool :=
  decide (key ∈ plans.map Plan.key) && s.writes key != writes key

/-- The transaction of `rotateEncryptedSettings`. -/
def rewrite (s : BindingState K M P V) (plans : List (Plan K M P V)) (writes : K → ℕ) :
    BindingState K M P V :=
  { s with
    rows := writePlans s.rows (s.clock + 1) plans
    clock := s.clock + 1
    converted := s.converted ++
      (plans.filter fun plan => plan.blob.isLegacy).map fun plan => plan.stamp
    writes := fun key => if s.overwrites plans writes key then s.writes key + 1 else s.writes key
    overwritten := fun key => s.overwritten key || s.overwrites plans writes key }

end BindingState

/-- What can happen next. Each call takes its steps in turn, and fails anywhere; `iv` is what it
draws, and `acknowledged` whether a commit is answered. `inject` is an old blob that is written into
the table. -/
inductive BindingEvent (K M P V : Type)
  | bind (call : ℕ) (master : M)
  | rotate (call : ℕ) (previous next : M)
  | advance (call : ℕ) (iv : K → ℕ) (acknowledged : Bool)
  | fail (call : ℕ)
  | save (key : K) (master : M) (iv : ℕ) (plain : P)
  | saveUnencrypted (key : K) (value : Stored K M P V)
  | delete (key : K)
  | inject (key : K) (master : M) (iv : ℕ) (plain : P)

namespace BindingState

variable [DecidableEq P] [DecidableEq V]

/-- `settings.all()`, and the rows that are still `v1`. -/
def legacyRows (rows : Rows K M P V) : List (K × SettingRow K M P V) :=
  rows.entries.filter fun row => row.2.encrypted && row.2.value.isLegacy

/-- `replaceEncryptedIfMatches` matches. -/
def matchesPlan (s : BindingState K M P V) (plan : Plan K M P V) : Bool :=
  match s.rows.get plan.key with
  | some row => row.encrypted && decide (row.value = plan.blob)
  | none => false

/-- A call takes its next step, and waits while another transaction keeps a row it writes. -/
def advance (s : BindingState K M P V) (call : ℕ) (iv : K → ℕ) (acknowledged : Bool) :
    Option (BindingState K M P V) :=
  match s.phase call with
  | .acquired master => some (s.goTo call (.listed master (legacyRows s.rows)))
  | .listed master legacy =>
    if 0 < s.markers then some (s.goTo call .finished)
    else match planRows (decryptLegacySetting master) master iv legacy with
      | .ok plans => some (s.goTo call (.planned plans))
      | .error _ => some (s.goTo call .failed)
  | .planned plans =>
    if 0 < s.markers then some (s.goTo call .finished) else some (s.goTo call (.replacing [] plans))
  | .replacing bound (plan :: rest) =>
    if s.locked plan.key ≠ none then none
    else if s.matchesPlan plan then
      some ((s.lock plan.key call).goTo call (.replacing (bound ++ [plan]) rest))
    else some (s.goTo call (.replacing bound rest))
  | .replacing bound [] =>
    if s.holder = some call then
      some (((s.bind bound).unlock call).goTo call (if acknowledged then .finished else .failed))
    else some ((s.unlock call).goTo call .failed)
  | .rotating previous next rows writes =>
    match rotationPlans rows (decide (0 < s.markers)) previous next iv with
    | .ok plans => some (s.goTo call (.rewriting rows plans writes))
    | .error _ => some (s.goTo call .failed)
  | .rewriting _ plans writes =>
    if ∃ plan ∈ plans, s.locked plan.key ≠ none then none
    else some ((s.rewrite plans writes).goTo call (if acknowledged then .rotated else .failed))
  | _ => none

/-- Whether a call has not come to its end. -/
def live (s : BindingState K M P V) (call : ℕ) : Bool :=
  match s.phase call with
  | .idle => false
  | .finished => false
  | .rotated => false
  | _ => true

def step (s : BindingState K M P V) : BindingEvent K M P V → Option (BindingState K M P V)
  | .bind call master =>
    match s.phase call with
    | .idle => some ({ s with holder := some call }.goTo call (.acquired master))
    | _ => none
  | .rotate call previous next =>
    match s.phase call with
    | .idle => some (s.goTo call (.rotating previous next s.rows s.writes))
    | _ => none
  | .advance call iv acknowledged => s.advance call iv acknowledged
  | .fail call => if s.live call then some ((s.unlock call).goTo call .failed) else none
  | .save key master iv plain =>
    if s.locked key = none then some (s.write key (encryptJson master key iv plain) true) else none
  | .saveUnencrypted key value =>
    if s.locked key = none then some (s.write key value false) else none
  | .delete key => if s.locked key = none then some (s.delete key) else none
  | .inject key master iv plain =>
    if s.locked key = none then some (s.write key (.v1 master iv plain) true) else none

def run (s : BindingState K M P V) (events : List (BindingEvent K M P V)) :
    Option (BindingState K M P V) :=
  events.foldlM step s

end BindingState

end FerrumNexus.Settings
