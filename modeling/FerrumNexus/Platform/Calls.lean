import FerrumNexus.Saga.Runs
import FerrumNexus.Platform.Text
import FerrumNexus.Saga.Views
import FerrumNexus.Saga.Abstractions

/-!
# Calls that leave the process

Every service of the portal is a sequence of store calls and Ferrum Edge calls.
An Edge write succeeds, is refused, or is applied with its acknowledgement
lost, and the caller sees one error for the last two; only a definite 4xx tells
them apart. A store call succeeds or fails whole, so a transaction is one
action; apart from its own checks it fails only while the store is down. The
state is a parameter: each subsystem brings its own.
-/
namespace FerrumNexus.Platform

open Saga

/-- The codes of `NexusError` the modelled services throw. -/
inductive ErrorCode
  | validationFailed
  | forbidden
  | notFound
  | conflict
  | lockTimeout
  | userDisabled
  | edgeError
  | internal
  deriving DecidableEq, Repr

/-- `NexusError`. Of its details only the gateway's HTTP status is ever read
back, by the append of an HTTP Basic credential. -/
structure NexusError where
  code : ErrorCode
  message : String
  status : Option ℕ := none
  deriving DecidableEq, Repr

def validationFailed (message : String) : NexusError := ⟨.validationFailed, message, none⟩

def forbidden (message : String) : NexusError := ⟨.forbidden, message, none⟩

def notFound (what : String) (id : ℕ) : NexusError :=
  ⟨.notFound, what ++ " '" ++ toString id ++ "' was not found", none⟩

def conflict (message : String) : NexusError := ⟨.conflict, message, none⟩

def userDisabled (message : String) : NexusError := ⟨.userDisabled, message, none⟩

def edgeError (message : String) : NexusError := ⟨.edgeError, message, none⟩

/-- What the Edge client throws, with the status of the answer if one came. -/
def edgeFailure (status : Option ℕ) : NexusError :=
  ⟨.edgeError, "The Ferrum Edge Admin API rejected the request", status⟩

def storeFailure : NexusError := ⟨.internal, "Internal server error", none⟩

/-- How one call ends. A refused call to the gateway was not applied; a lost
one was. While the store is down neither side answers. -/
inductive Outcome
  | ok
  | refused (status : Option ℕ)
  | lost (status : Option ℕ)
  | down
  deriving DecidableEq, Repr

/-- A 4xx other than 408: proof that the gateway did not apply the call. -/
def definiteRefusal : Option ℕ → Bool
  | none => false
  | some n => 400 ≤ n && n < 500 && n != 408

section Calls

variable {σ χ α : Type}

abbrev Service (σ α : Type) := Fallible σ Outcome NexusError α

/-- A gateway read. Anything but an answer is an exception. -/
def edgeRead (f : σ → α) : Service σ α :=
  atomic fun s o => match o with
    | .ok => some (.ok (f s), s)
    | .refused st => some (.error (edgeFailure st), s)
    | .lost st => some (.error (edgeFailure st), s)
    | .down => some (.error (edgeFailure none), s)

/-- A gateway write. `f` answers with an error where the gateway itself refuses
the request, a missing resource for instance. -/
def edgeWrite (f : σ → Except NexusError (α × σ)) : Service σ α :=
  atomic fun s o => match o, f s with
    | .ok, .ok (a, s') => some (.ok a, s')
    | .ok, .error e => some (.error e, s)
    | .refused st, _ => some (.error (edgeFailure st), s)
    | .lost st, .ok (_, s') =>
      if definiteRefusal st then none else some (.error (edgeFailure st), s')
    | .lost _, .error e => some (.error e, s)
    | .down, _ => some (.error (edgeFailure none), s)

def storeRead (f : σ → α) : Service σ α :=
  atomic fun s o => match o with
    | .down => some (.error storeFailure, s)
    | _ => some (.ok (f s), s)

/-- A store write or a transaction: applied whole, or not at all. -/
def transaction (f : σ → Except NexusError (α × σ)) : Service σ α :=
  atomic fun s o => match o, f s with
    | .down, _ => some (.error storeFailure, s)
    | _, .ok (a, s') => some (.ok a, s')
    | _, .error e => some (.error e, s)

/-- `if (!condition) throw error`. -/
def ensure (condition : Bool) (error : NexusError) : Service σ Unit :=
  if condition then pure () else throw error

/-- `if (condition) await p`. -/
def whenever (condition : Bool) (p : Service σ Unit) : Service σ Unit :=
  if condition then p else pure ()

/-- `await p.catch(() => undefined)`, the result unused. -/
def bestEffort (p : Fallible σ χ NexusError α) : Fallible σ χ NexusError Unit :=
  (fun _ => ()) <$> swallow p

/-- `try { … } catch (error) { … }` around a call whose failure is handled by
what follows it. -/
def attempt (p : Fallible σ χ NexusError α) : Fallible σ χ NexusError (Except NexusError α) :=
  tryCatch (Except.ok <$> p) fun error => pure (.error error)

/-- A pure check of the source that throws. -/
def check : Except NexusError α → Fallible σ χ NexusError α
  | .ok a => pure a
  | .error e => throw e

variable {R G : σ → σ → Prop} {Q : α → σ → Prop} {E : NexusError → σ → Prop} {s : σ}

theorem wpe_edgeRead {f : σ → α}
    (h : ∀ s₁, R s s₁ → G s₁ s₁ ∧ Q (f s₁) s₁ ∧ ∀ st, E (edgeFailure st) s₁) :
    wpe R G (edgeRead f) Q E s := by
  rw [edgeRead, wpe_atomic]
  intro s₁ hr c r s' hf
  obtain ⟨hG, hQ, hE⟩ := h s₁ hr
  cases c <;> simp only [Option.some.injEq, Prod.mk.injEq] at hf <;>
    obtain ⟨rfl, rfl⟩ := hf
  · exact ⟨hG, hQ⟩
  · exact ⟨hG, hE _⟩
  · exact ⟨hG, hE _⟩
  · exact ⟨hG, hE _⟩

/-- A write is applied and answered, applied and not answered, or not applied. -/
theorem wpe_edgeWrite {f : σ → Except NexusError (α × σ)}
    (hok : ∀ s₁, R s s₁ → ∀ a s', f s₁ = .ok (a, s') →
      G s₁ s' ∧ Q a s' ∧ ∀ st, definiteRefusal st = false → E (edgeFailure st) s')
    (herr : ∀ s₁, R s s₁ → ∀ e, f s₁ = .error e → E e s₁)
    (href : ∀ s₁, R s s₁ → G s₁ s₁ ∧ ∀ st, E (edgeFailure st) s₁) :
    wpe R G (edgeWrite f) Q E s := by
  rw [edgeWrite, wpe_atomic]
  intro s₁ hr c r s' hf
  split at hf
  · rename_i a s₂ hfs
    cases hf
    exact ⟨(hok s₁ hr a _ hfs).1, (hok s₁ hr a _ hfs).2.1⟩
  · rename_i e hfs
    cases hf
    exact ⟨(href s₁ hr).1, herr s₁ hr e hfs⟩
  · cases hf
    exact ⟨(href s₁ hr).1, (href s₁ hr).2 _⟩
  · rename_i st a s₂ hfs
    split at hf
    · contradiction
    · rename_i hst
      cases hf
      exact ⟨(hok s₁ hr a _ hfs).1, (hok s₁ hr a _ hfs).2.2 st (by simpa using hst)⟩
  · rename_i e hfs
    cases hf
    exact ⟨(href s₁ hr).1, herr s₁ hr e hfs⟩
  · cases hf
    exact ⟨(href s₁ hr).1, (href s₁ hr).2 _⟩

theorem wpe_storeRead {f : σ → α}
    (h : ∀ s₁, R s s₁ → G s₁ s₁ ∧ Q (f s₁) s₁ ∧ E storeFailure s₁) :
    wpe R G (storeRead f) Q E s := by
  rw [storeRead, wpe_atomic]
  intro s₁ hr c r s' hf
  obtain ⟨hG, hQ, hE⟩ := h s₁ hr
  cases c <;> simp only [Option.some.injEq, Prod.mk.injEq] at hf <;>
    obtain ⟨rfl, rfl⟩ := hf
  · exact ⟨hG, hQ⟩
  · exact ⟨hG, hQ⟩
  · exact ⟨hG, hQ⟩
  · exact ⟨hG, hE⟩

/-- A transaction commits whole or leaves the state. -/
theorem wpe_transaction {f : σ → Except NexusError (α × σ)}
    (hok : ∀ s₁, R s s₁ → ∀ a s', f s₁ = .ok (a, s') → G s₁ s' ∧ Q a s')
    (herr : ∀ s₁, R s s₁ → ∀ e, f s₁ = .error e → E e s₁)
    (hfail : ∀ s₁, R s s₁ → G s₁ s₁ ∧ E storeFailure s₁) :
    wpe R G (transaction f) Q E s := by
  rw [transaction, wpe_atomic]
  intro s₁ hr c r s' hf
  split at hf
  · cases hf
    exact hfail s₁ hr
  · rename_i a s₂ _ hfs
    cases hf
    exact hok s₁ hr a _ hfs
  · rename_i e _ hfs
    cases hf
    exact ⟨(hfail s₁ hr).1, herr s₁ hr e hfs⟩

theorem wpe_ensure {condition : Bool} {error : NexusError} {Q : Unit → σ → Prop}
    (hok : condition = true → Q () s) (herr : condition = false → E error s) :
    wpe R G (ensure condition error) Q E s := by
  cases condition with
  | true => exact hok rfl
  | false => exact herr rfl

theorem wpe_whenever {condition : Bool} {p : Service σ Unit} {Q : Unit → σ → Prop}
    (hyes : condition = true → wpe R G p Q E s) (hno : condition = false → Q () s) :
    wpe R G (whenever condition p) Q E s := by
  cases condition with
  | true => exact hyes rfl
  | false => exact hno rfl

theorem wpe_bestEffort {p : Fallible σ χ NexusError α} {Q : Unit → σ → Prop}
    (h : wpe R G p (fun _ s' => Q () s') (fun _ s' => Q () s') s) :
    wpe R G (bestEffort p) Q E s := by
  rw [bestEffort, wpe_map, wpe_swallow]
  exact h

theorem wpe_attempt {p : Fallible σ χ NexusError α} {Q : Except NexusError α → σ → Prop}
    (h : wpe R G p (fun a s' => Q (.ok a) s') (fun e s' => Q (.error e) s') s) :
    wpe R G (attempt p) Q E s := by
  rw [attempt, wpe_tryCatch, wpe_map]
  exact h

theorem wpe_check {x : Except NexusError α} (hok : ∀ a, x = .ok a → Q a s)
    (herr : ∀ e, x = .error e → E e s) :
    wpe R G (check x : Fallible σ χ NexusError α) Q E s := by
  cases x with
  | ok a => exact hok a rfl
  | error e => exact herr e rfl

end Calls

section Scopes

variable {σ ν : Type} {o : Scope σ ν} {v : ν} {Q : Unit → ν → Prop} {E : NexusError → ν → Prop}

theorem does_ensure {condition : Bool} {error : NexusError} (hQ : condition = true → Q () v)
    (hE : E error v) : o.Does v (ensure condition error : Service σ Unit) Q E := by
  cases condition with
  | true => exact Scope.does_pure (hQ rfl)
  | false => exact Scope.does_throw hE

theorem does_whenever {condition : Bool} {p : Service σ Unit}
    (hyes : condition = true → o.Does v p Q E) (hno : condition = false → Q () v) :
    o.Does v (whenever condition p) Q E := by
  cases condition with
  | true => exact hyes rfl
  | false => exact Scope.does_pure (hno rfl)

section Answers

variable {α : Type} {Q : α → ν → Prop}

theorem does_edgeRead {f : σ → α} (hQ : ∀ s, o.view s = v → Q (f s) v)
    (hE : ∀ error, E error v) : o.Does v (edgeRead f) Q E := by
  rintro s rfl hs
  refine wpe_edgeRead fun s₁ hr => ⟨o.moves_refl _, ⟨hr.2 hs, ?_⟩, fun st => ⟨hr.2 hs, ?_⟩⟩
  · rw [hr.1]
    exact hQ s₁ hr.1
  · rw [hr.1]
    exact hE _

/-- An acknowledgement may be lost: then the caller is told of a failure. -/
theorem does_edgeWrite {f : σ → Except NexusError (α × σ)}
    (hok : ∀ s, o.view s = v → o.sound s → ∀ a s', f s = .ok (a, s') → o.sound s' ∧
      o.moves v (o.view s') ∧ Q a (o.view s') ∧ ∀ error, E error (o.view s'))
    (hE : ∀ error, E error v) : o.Does v (edgeWrite f) Q E := by
  rintro s rfl hs
  refine wpe_edgeWrite (fun s₁ hr a s' hf => ?_) (fun s₁ hr error _ => ?_) fun s₁ hr => ?_
  · obtain ⟨hs', hm, hq, he⟩ := hok s₁ hr.1 (hr.2 hs) a s' hf
    rw [← hr.1] at hm
    exact ⟨hm, ⟨hs', hq⟩, fun st _ => ⟨hs', he _⟩⟩
  · exact ⟨hr.2 hs, hr.1 ▸ hE error⟩
  · exact ⟨o.moves_refl _, fun st => ⟨hr.2 hs, hr.1 ▸ hE _⟩⟩

theorem does_storeRead {f : σ → α} (hQ : ∀ s, o.view s = v → Q (f s) v)
    (hE : ∀ error, E error v) : o.Does v (storeRead f) Q E := by
  rintro s rfl hs
  refine wpe_storeRead fun s₁ hr => ⟨o.moves_refl _, ⟨hr.2 hs, ?_⟩, hr.2 hs, ?_⟩
  · rw [hr.1]
    exact hQ s₁ hr.1
  · rw [hr.1]
    exact hE _

theorem does_transaction {f : σ → Except NexusError (α × σ)}
    (hok : ∀ s, o.view s = v → o.sound s → ∀ a s', f s = .ok (a, s') → o.sound s' ∧
      o.moves v (o.view s') ∧ Q a (o.view s'))
    (hE : ∀ error, E error v) : o.Does v (transaction f) Q E := by
  rintro s rfl hs
  refine wpe_transaction (fun s₁ hr a s' hf => ?_) (fun s₁ hr error _ => ?_) fun s₁ hr => ?_
  · obtain ⟨hs', hm, hq⟩ := hok s₁ hr.1 (hr.2 hs) a s' hf
    rw [← hr.1] at hm
    exact ⟨hm, hs', hq⟩
  · exact ⟨hr.2 hs, hr.1 ▸ hE error⟩
  · exact ⟨o.moves_refl _, hr.2 hs, hr.1 ▸ hE _⟩

end Answers

theorem does_attempt {α : Type} {p : Service σ α} {Q : Except NexusError α → ν → Prop}
    (h : o.Does v p (fun a => Q (.ok a)) (fun error => Q (.error error))) :
    o.Does v (attempt p) Q E :=
  Scope.does_tryCatch ((Scope.does_map h).mono (fun _ _ hq => hq) fun _ _ => Scope.does_pure)

theorem does_bestEffort {α : Type} {p : Service σ α}
    (h : o.Does v p (fun _ => Q ()) (fun _ => Q ())) : o.Does v (bestEffort p) Q E := by
  have hsome : o.Does v (some <$> p) (fun _ => Q ()) (fun _ => Q ()) := Scope.does_map h
  refine Scope.does_map (Scope.does_tryCatch ?_)
  exact hsome.mono (fun _ _ hq => hq) fun _ _ hq => Scope.does_pure hq

end Scopes

section Abstractions

variable {σ ν : Type} {o : Abstraction σ ν Outcome} {v : ν} {Q : Unit → ν → Prop}
  {E : NexusError → ν → Prop}

theorem describes_attempt {α : Type} {p : Service σ α} {Q : Except NexusError α → ν → Prop}
    (h : o.Does v p (fun a => Q (.ok a)) (fun error => Q (.error error))) :
    o.Does v (attempt p) Q E :=
  Abstraction.does_tryCatch
    ((Abstraction.does_map h).mono (fun _ _ hq => hq) fun _ _ => Abstraction.does_pure)

theorem describes_bestEffort {α : Type} {p : Service σ α}
    (h : o.Does v p (fun _ => Q ()) (fun _ => Q ())) : o.Does v (bestEffort p) Q E := by
  have hsome : o.Does v (some <$> p) (fun _ => Q ()) (fun _ => Q ()) := Abstraction.does_map h
  refine Abstraction.does_map (Abstraction.does_tryCatch ?_)
  exact hsome.mono (fun _ _ hq => hq) fun _ _ hq => Abstraction.does_pure hq

theorem keeps_attempt {α : Type} {A : ν → Prop} {p : Service σ α} (h : o.Keeps A p) :
    o.Keeps A (attempt p) :=
  fun v hv => describes_attempt (h v hv)

theorem keeps_bestEffort {α : Type} {A : ν → Prop} {p : Service σ α} (h : o.Keeps A p) :
    o.Keeps A (bestEffort p) :=
  fun v hv => describes_bestEffort (h v hv)

end Abstractions

section Reading

variable {σ α : Type}

theorem reads_edgeRead (f : σ → α) : Reads (edgeRead f : Service σ α) := by
  refine reads_atomic ?_
  intro s c r s' hf
  cases c <;> cases hf <;> rfl

theorem reads_storeRead (f : σ → α) : Reads (storeRead f : Service σ α) := by
  refine reads_atomic ?_
  intro s c r s' hf
  cases c <;> cases hf <;> rfl

theorem reads_ensure (condition : Bool) (error : NexusError) :
    Reads (ensure condition error : Service σ Unit) := by
  cases condition with
  | true => exact reads_pure ()
  | false => exact reads_throw error

end Reading

end FerrumNexus.Platform
