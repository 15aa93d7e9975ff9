import Mathlib.Tactic

/-!
# Programs that pay as they go

A metered program works on a state of its own, records events and pays for its
work in units. It is run under a limit: what it pays past the limit unwinds it
from wherever it is, and the events recorded so far are what it leaves behind.
Two rules are proved once for all such programs. A limit only truncates the
events of a run without one, and what holds in every state of a run follows from
what each step preserves.
-/
namespace FerrumNexus.Saga

/-- A program over the state `σ` that records events in `ε`. A loop without a
bound is a family of programs indexed by its fuel, and `stuck` without any. -/
inductive Metered (σ ε : Type) (α : Type) : Type 1
  | done (a : α)
  | spend (amount : ℕ) (k : Metered σ ε α)
  | record (e : ε) (k : Metered σ ε α)
  | step {β : Type} (f : σ → β × σ) (k : β → Metered σ ε α)
  | stuck

namespace Metered

variable {σ ε α β γ : Type}

def bind : Metered σ ε α → (α → Metered σ ε β) → Metered σ ε β
  | done a, g => g a
  | spend amount k, g => spend amount (k.bind g)
  | record e k, g => record e (k.bind g)
  | step f k, g => step f fun b => (k b).bind g
  | stuck, _ => stuck

instance : Monad (Metered σ ε) where
  pure := done
  bind := bind

@[simp] theorem pure_eq (a : α) : (pure a : Metered σ ε α) = done a := rfl

@[simp] theorem done_bind (a : α) (g : α → Metered σ ε β) : (done a >>= g) = g a := rfl

@[simp] theorem spend_bind (amount : ℕ) (k : Metered σ ε α) (g : α → Metered σ ε β) :
    (spend amount k >>= g) = spend amount (k >>= g) := rfl

@[simp] theorem record_bind (e : ε) (k : Metered σ ε α) (g : α → Metered σ ε β) :
    (record e k >>= g) = record e (k >>= g) := rfl

@[simp] theorem step_bind (f : σ → γ × σ) (k : γ → Metered σ ε α) (g : α → Metered σ ε β) :
    (step f k >>= g) = step f fun b => k b >>= g := rfl

@[simp] theorem stuck_bind (g : α → Metered σ ε β) : (stuck >>= g) = stuck := rfl

/-- A loop over a list. -/
def each (body : β → Metered σ ε Unit) : List β → Metered σ ε Unit
  | [] => done ()
  | item :: rest => body item >>= fun _ => each body rest

/-! ## Runs under a limit -/

inductive Outcome (α : Type)
  | ended (a : α)
  | exhausted
  | stuck

/-- What a run leaves behind. -/
structure Run (σ ε α : Type) where
  outcome : Outcome α
  units : ℕ
  state : σ
  events : List ε

/-- Whether `units` are within a limit; without one everything is. -/
def within (limit : Option ℕ) (units : ℕ) : Bool := limit.all (units ≤ ·)

def run (limit : Option ℕ) : Metered σ ε α → ℕ → σ → Run σ ε α
  | done a, units, s => ⟨.ended a, units, s, []⟩
  | spend amount k, units, s =>
    if within limit (units + amount) then k.run limit (units + amount) s
    else ⟨.exhausted, units + amount, s, []⟩
  | record e k, units, s =>
    let rest := k.run limit units s
    { rest with events := e :: rest.events }
  | step f k, units, s => (k (f s).1).run limit units (f s).2
  | stuck, units, s => ⟨.stuck, units, s, []⟩

/-- A limit above another, or none. -/
def Raises (limit limit' : Option ℕ) : Prop :=
  ∀ units, within limit units → within limit' units

theorem raises_none (limit : Option ℕ) : Raises limit none := fun _ _ => rfl

theorem raises_some {limit limit' : ℕ} (h : limit ≤ limit') : Raises (some limit) (some limit') := by
  intro units hunits
  simp only [within, Option.all_some, decide_eq_true_eq] at hunits ⊢
  omega

/-- Under a higher limit a run is the same, or goes on where the lower one
unwound it. -/
theorem run_raises {limit limit' : Option ℕ} (h : Raises limit limit') (p : Metered σ ε α)
    (units : ℕ) (s : σ) :
    p.run limit units s = p.run limit' units s ∨
      (p.run limit units s).outcome = .exhausted ∧
        (p.run limit units s).events <+: (p.run limit' units s).events := by
  induction p generalizing units s with
  | done a => exact .inl rfl
  | stuck => exact .inl rfl
  | step f k ih => exact ih (f s).1 units (f s).2
  | record e k ih =>
    simp only [run]
    cases ih units s with
    | inl hsame => simp [hsame]
    | inr hbegins => exact .inr ⟨hbegins.1, (List.cons_prefix_cons).mpr ⟨rfl, hbegins.2⟩⟩
  | spend amount k ih =>
    by_cases hwithin : within limit (units + amount) = true
    · simp only [run, if_pos hwithin, if_pos (h _ hwithin)]
      exact ih (units + amount) s
    · rw [run, if_neg hwithin]
      exact .inr ⟨rfl, List.nil_prefix⟩

/-! ## What holds along a run -/

/-- Without a limit the program ends, and the result, the state and the events
recorded by then satisfy `Q`. -/
def Holds (Q : α → σ → List ε → Prop) : Metered σ ε α → σ → List ε → Prop
  | done a, s, events => Q a s events
  | spend _ k, s, events => Holds Q k s events
  | record e k, s, events => Holds Q k s (events ++ [e])
  | step f k, s, events => Holds Q (k (f s).1) (f s).2 events
  | stuck, _, _ => False

theorem Holds.mono {Q Q' : α → σ → List ε → Prop} {p : Metered σ ε α} {s : σ} {events : List ε}
    (h : Holds Q p s events) (hmono : ∀ a s events, Q a s events → Q' a s events) :
    Holds Q' p s events := by
  induction p generalizing s events with
  | done a => exact hmono a s events h
  | spend amount k ih => exact ih h
  | record e k ih => exact ih h
  | step f k ih => exact ih (f s).1 h
  | stuck => exact h

theorem Holds.bind {Q : α → σ → List ε → Prop} {Q' : β → σ → List ε → Prop} {p : Metered σ ε α}
    {g : α → Metered σ ε β} {s : σ} {events : List ε} (h : Holds Q p s events)
    (hg : ∀ a s events, Q a s events → Holds Q' (g a) s events) : Holds Q' (p >>= g) s events := by
  induction p generalizing s events with
  | done a => exact hg a s events h
  | spend amount k ih => exact ih h
  | record e k ih => exact ih h
  | step f k ih => exact ih (f s).1 h
  | stuck => exact h.elim

theorem Holds.run {Q : α → σ → List ε → Prop} {p : Metered σ ε α} {s : σ} {events : List ε}
    (h : Holds Q p s events) (units : ℕ) :
    ∃ a, (p.run none units s).outcome = .ended a ∧
      Q a (p.run none units s).state (events ++ (p.run none units s).events) := by
  induction p generalizing s events units with
  | done a =>
    refine ⟨a, rfl, ?_⟩
    rw [Metered.run, List.append_nil]
    exact h
  | spend amount k ih => exact ih h (units + amount)
  | record e k ih =>
    obtain ⟨a, hended, hq⟩ := ih h units
    exact ⟨a, hended, by simpa [Metered.run] using hq⟩
  | step f k ih => exact ih (f s).1 h units
  | stuck => exact h.elim

/-- The program keeps `I`, and ends. -/
def Keeps (I : σ → List ε → Prop) (p : Metered σ ε α) : Prop :=
  ∀ s events, I s events → Holds (fun _ s events => I s events) p s events

section Keeps

variable {I : σ → List ε → Prop}

theorem keeps_done (a : α) : Keeps I (done a) := fun _ _ h => h

theorem keeps_spend {amount : ℕ} {p : Metered σ ε α} (h : Keeps I p) :
    Keeps I (spend amount p) := h

theorem keeps_record {e : ε} {p : Metered σ ε α} (he : ∀ s events, I s events → I s (events ++ [e]))
    (h : Keeps I p) : Keeps I (record e p) :=
  fun s events hi => h s (events ++ [e]) (he s events hi)

theorem keeps_step {f : σ → β × σ} {k : β → Metered σ ε α}
    (hf : ∀ s events, I s events → I (f s).2 events) (h : ∀ b, Keeps I (k b)) :
    Keeps I (step f k) :=
  fun s events hi => h (f s).1 (f s).2 events (hf s events hi)

theorem Keeps.bind {p : Metered σ ε α} {g : α → Metered σ ε β} (h : Keeps I p)
    (hg : ∀ a, Keeps I (g a)) : Keeps I (p >>= g) :=
  fun s events hi => (h s events hi).bind hg

theorem keeps_each {items : List β} {body : β → Metered σ ε Unit}
    (h : ∀ item ∈ items, Keeps I (body item)) : Keeps I (each body items) := by
  induction items with
  | nil => exact keeps_done ()
  | cons item rest ih =>
    have hrest : ∀ other ∈ rest, Keeps I (body other) :=
      fun other hother => h other (List.mem_cons_of_mem item hother)
    exact (h item List.mem_cons_self).bind fun _ => ih hrest

end Keeps

/-! ## What a run comes to -/

/-- Without a limit the program ends, and the result, the state and the units
paid by then satisfy `Q`. -/
def Ends (Q : α → σ → ℕ → Prop) : Metered σ ε α → σ → ℕ → Prop
  | done a, s, units => Q a s units
  | spend amount k, s, units => Ends Q k s (units + amount)
  | record _ k, s, units => Ends Q k s units
  | step f k, s, units => Ends Q (k (f s).1) (f s).2 units
  | stuck, _, _ => False

section Ends

variable {Q : α → σ → ℕ → Prop} {p : Metered σ ε α} {s : σ} {units : ℕ}

theorem Ends.mono {Q' : α → σ → ℕ → Prop} (h : Ends Q p s units)
    (hmono : ∀ a s units, Q a s units → Q' a s units) : Ends Q' p s units := by
  induction p generalizing s units with
  | done a => exact hmono a s units h
  | spend amount k ih => exact ih h
  | record e k ih => exact ih h
  | step f k ih => exact ih (f s).1 h
  | stuck => exact h

theorem Ends.bind {Q' : β → σ → ℕ → Prop} {g : α → Metered σ ε β} (h : Ends Q p s units)
    (hg : ∀ a s units, Q a s units → Ends Q' (g a) s units) : Ends Q' (p >>= g) s units := by
  induction p generalizing s units with
  | done a => exact hg a s units h
  | spend amount k ih => exact ih h
  | record e k ih => exact ih h
  | step f k ih => exact ih (f s).1 h
  | stuck => exact h.elim

theorem Ends.run (h : Ends Q p s units) :
    ∃ a, (p.run none units s).outcome = .ended a ∧
      Q a (p.run none units s).state (p.run none units s).units := by
  induction p generalizing s units with
  | done a => exact ⟨a, rfl, h⟩
  | spend amount k ih => exact ih h
  | record e k ih => exact ih h
  | step f k ih => exact ih (f s).1 h
  | stuck => exact h.elim

theorem le_units (limit : Option ℕ) (p : Metered σ ε α) (units : ℕ) (s : σ) :
    units ≤ (p.run limit units s).units := by
  induction p generalizing units s with
  | done a => exact le_rfl
  | stuck => exact le_rfl
  | record e k ih => exact ih units s
  | step f k ih => exact ih (f s).1 units (f s).2
  | spend amount k ih =>
    rw [Metered.run]
    split
    · have := ih (units + amount) s
      omega
    · show units ≤ units + amount
      omega

/-- A run that pays no more than the limit is the one without a limit. -/
theorem run_within {limit : ℕ} (h : (p.run none units s).units ≤ limit) :
    p.run (some limit) units s = p.run none units s := by
  induction p generalizing units s with
  | done a => rfl
  | stuck => rfl
  | record e k ih =>
    have hrest : k.run (some limit) units s = k.run none units s := ih h
    simp only [Metered.run, hrest]
  | step f k ih => exact ih (f s).1 h
  | spend amount k ih =>
    have hpaid : units + amount ≤ limit := (le_units none k (units + amount) s).trans h
    have hwithin : within (some limit) (units + amount) = true := by simpa [within] using hpaid
    rw [Metered.run, if_pos hwithin]
    exact ih h

/-- A run that ends under a limit is the one without a limit. -/
theorem run_of_ended {limit : ℕ} {a : α} (h : (p.run (some limit) units s).outcome = .ended a) :
    p.run (some limit) units s = p.run none units s := by
  cases run_raises (raises_none (some limit)) p units s with
  | inl hsame => exact hsame
  | inr hbegins =>
    rw [hbegins.1] at h
    cases h

/-- And it has paid no more than the limit. -/
theorem units_of_ended {limit : ℕ} {a : α} (hunits : units ≤ limit)
    (h : (p.run (some limit) units s).outcome = .ended a) :
    (p.run (some limit) units s).units ≤ limit := by
  induction p generalizing units s with
  | done a => exact hunits
  | stuck => exact hunits
  | record e k ih => exact ih hunits h
  | step f k ih => exact ih (f s).1 hunits h
  | spend amount k ih =>
    rw [Metered.run] at h ⊢
    split
    · rename_i hwithin
      rw [if_pos hwithin] at h
      exact ih (by simpa [within] using hwithin) h
    · rename_i hwithin
      rw [if_neg hwithin] at h
      cases h

/-- What follows a program that ends runs on from where it ended. -/
theorem run_bind_of_ended {g : α → Metered σ ε β} {limit : Option ℕ} {a : α}
    (h : (p.run limit units s).outcome = .ended a) :
    ((p >>= g).run limit units s).units =
        ((g a).run limit (p.run limit units s).units (p.run limit units s).state).units ∧
      ((p >>= g).run limit units s).outcome =
        ((g a).run limit (p.run limit units s).units (p.run limit units s).state).outcome := by
  induction p generalizing units s with
  | done b =>
    cases h
    exact ⟨rfl, rfl⟩
  | stuck => cases h
  | record e k ih => exact ih h
  | step f k ih => exact ih (f s).1 h
  | spend amount k ih =>
    rw [Metered.run] at h ⊢
    rw [spend_bind, Metered.run]
    split
    · rename_i hwithin
      rw [if_pos hwithin] at h
      exact ih h
    · rename_i hwithin
      rw [if_neg hwithin] at h
      cases h

/-- A limited run of such a program is exhausted or comes to the same. -/
theorem Ends.limited (h : Ends Q p s units) (limit : ℕ) :
    (p.run (some limit) units s).outcome = .exhausted ∨
      ∃ a, (p.run (some limit) units s).outcome = .ended a ∧
        Q a (p.run (some limit) units s).state (p.run (some limit) units s).units := by
  cases run_raises (raises_none (some limit)) p units s with
  | inl hsame =>
    rw [hsame]
    exact .inr h.run
  | inr hbegins => exact .inl hbegins.1

end Ends

end Metered

end FerrumNexus.Saga
