import FerrumNexus.Saga.Fallible

/-!
# Descriptions of the state

A program may know its state only up to a description: bounds on what others
can take away at any time, next to values it holds itself. A state fits a
description, others move it among states that fit, and a specification starts
from one description and ends in another. The choices of the adversary may be
limited to the fair ones.
-/
namespace FerrumNexus.Saga

/-- Descriptions in `ν` of the states in `σ`, and what others may do. -/
structure Abstraction (σ ν χ : Type) where
  fits : σ → ν → Prop
  rely : σ → σ → Prop
  fair : χ → Bool
  stable : ∀ s s' v, fits s v → rely s s' → fits s' v

variable {σ ν χ ε α β : Type}

namespace Abstraction

variable (o : Abstraction σ ν χ)

/-- Every action of a program leaves a state with a description. -/
def Described (_ s : σ) : Prop := ∃ v, o.fits s v

/-- From the description `v`, `p` answers as `Q` says or throws as `E` says. -/
def Does (v : ν) (p : Fallible σ χ ε α) (Q : α → ν → Prop) (E : ε → ν → Prop) : Prop :=
  ∀ s, o.fits s v → wpe o.rely o.Described (p.limit o.fair)
    (fun a s' => ∃ v', o.fits s' v' ∧ Q a v') (fun e s' => ∃ v', o.fits s' v' ∧ E e v') s

variable {o} {v : ν} {Q : α → ν → Prop} {E : ε → ν → Prop}

theorem does_pure {a : α} (h : Q a v) : o.Does v (pure a : Fallible σ χ ε α) Q E :=
  fun _ hs => ⟨v, hs, h⟩

theorem does_throw {e : ε} (h : E e v) : o.Does v (throw e : Fallible σ χ ε α) Q E :=
  fun _ hs => ⟨v, hs, h⟩

variable {p : Fallible σ χ ε α}

theorem Does.mono {Q' : α → ν → Prop} {E' : ε → ν → Prop} (h : o.Does v p Q E)
    (hQ : ∀ a v', Q a v' → Q' a v') (hE : ∀ e v', E e v' → E' e v') :
    o.Does v p Q' E' := by
  intro s hs
  refine wpe_mono (h s hs) ?_ ?_
  · exact fun a s' ⟨v', hs', hq⟩ => ⟨v', hs', hQ a v' hq⟩
  · exact fun e s' ⟨v', hs', he⟩ => ⟨v', hs', hE e v' he⟩

theorem does_bind {p : Fallible σ χ ε β} {g : β → Fallible σ χ ε α}
    (h : o.Does v p (fun b v' => o.Does v' (g b) Q E) E) : o.Does v (p >>= g) Q E := by
  intro s hs
  rw [limit_bind]
  refine (wpe_bind _ _).mpr (wpe_mono (h s hs) ?_ fun _ _ he => he)
  exact fun b s' ⟨v', hs', hg⟩ => hg s' hs'

theorem does_tryCatch {handler : ε → Fallible σ χ ε α}
    (h : o.Does v p Q (fun e v' => o.Does v' (handler e) Q E)) :
    o.Does v (tryCatch p handler) Q E := by
  intro s hs
  rw [limit_tryCatch]
  refine (wpe_tryCatch _ _).mpr (wpe_mono (h s hs) (fun _ _ hq => hq) ?_)
  exact fun e s' ⟨v', hs', hh⟩ => hh s' hs'

theorem does_map {p : Fallible σ χ ε β} {g : β → α}
    (h : o.Does v p (fun b v' => Q (g b) v') E) : o.Does v (g <$> p) Q E := by
  intro s hs
  rw [limit_map]
  exact (wpe_map _ _).mpr (h s hs)

theorem does_atomic {f : σ → χ → Option (Except ε α × σ)}
    (h : ∀ s, o.fits s v → ∀ c, o.fair c = true → ∀ r s', f s c = some (r, s') →
      ∃ v', o.fits s' v' ∧ match r with
        | .ok a => Q a v'
        | .error e => E e v') : o.Does v (atomic f) Q E := by
  intro s hs
  rw [limit_atomic, wpe_atomic]
  intro s₁ hr c r s' hf
  split at hf
  · rename_i hfair
    obtain ⟨v', hs', hpost⟩ := h s₁ (o.stable _ _ _ hs hr) c hfair r s' hf
    refine ⟨⟨v', hs'⟩, ?_⟩
    cases r with
    | ok a => exact ⟨v', hs', hpost⟩
    | error e => exact ⟨v', hs', hpost⟩
  · contradiction

theorem does_reads (hp : Reads p) (hQ : ∀ a, Q a v) (hE : ∀ e, E e v) :
    o.Does v p Q E := by
  intro s hs
  have hfits := wp_limit o.fair (hp.wpe (fun s s' => o.stable s s' v) hs)
  refine wp_guarantee hfits ?_ ?_
  · exact fun _ s' ⟨_, hs'⟩ => ⟨v, hs'⟩
  · rintro (e | a) s' hs'
    · exact ⟨v, hs', hE e⟩
    · exact ⟨v, hs', hQ a⟩

/-- `A` holds of the description when `p` ends, if it held at its start. -/
def Keeps (o : Abstraction σ ν χ) (A : ν → Prop) (p : Fallible σ χ ε α) : Prop :=
  ∀ v, A v → o.Does v p (fun _ => A) (fun _ => A)

variable {A : ν → Prop}

theorem keeps_reads (hp : Reads p) : o.Keeps A p :=
  fun _ hv => does_reads hp (fun _ => hv) fun _ => hv

theorem Keeps.bind {p : Fallible σ χ ε β} {g : β → Fallible σ χ ε α} (hp : o.Keeps A p)
    (hg : ∀ b, o.Keeps A (g b)) : o.Keeps A (p >>= g) :=
  fun v hv => does_bind ((hp v hv).mono (fun b v' hv' => hg b v' hv') fun _ _ h => h)

theorem Keeps.tryCatch {handler : ε → Fallible σ χ ε α} (hp : o.Keeps A p)
    (hh : ∀ e, o.Keeps A (handler e)) : o.Keeps A (tryCatch p handler) :=
  fun v hv => does_tryCatch ((hp v hv).mono (fun _ _ h => h) fun e v' hv' => hh e v' hv')

end Abstraction

end FerrumNexus.Saga
