import FerrumNexus.Saga.Fallible

/-!
# Programs that own a part of the state

A program that holds the lock of a part of the state is described by what it
does to that part alone. A scope names the part as a view, a soundness of the
whole state that everybody keeps, and the moves of the view a single action
may make. Other programs are free outside the view. A specification is then a
statement about views: it starts from one value of the view and answers with
others, and stability under the environment is proved once, in the rule for an
action.
-/
namespace FerrumNexus.Saga

/-- The part of `σ` a program owns. -/
structure Scope (σ ν : Type) where
  view : σ → ν
  sound : σ → Prop
  moves : ν → ν → Prop
  moves_refl : ∀ v, moves v v

variable {σ ν χ ε α β : Type}

namespace Scope

variable (o : Scope σ ν)

/-- What others do to the state: nothing in the view. -/
def Others (s s' : σ) : Prop := o.view s' = o.view s ∧ (o.sound s → o.sound s')

/-- What one action of the program does. -/
def Moves (s s' : σ) : Prop := o.moves (o.view s) (o.view s')

/-- From the view `v`, `p` answers as `Q` says or throws as `E` says, and each
of its actions is a move of the scope. -/
def Does (v : ν) (p : Fallible σ χ ε α) (Q : α → ν → Prop) (E : ε → ν → Prop) : Prop :=
  ∀ s, o.view s = v → o.sound s → wpe o.Others o.Moves p
    (fun a s' => o.sound s' ∧ Q a (o.view s')) (fun e s' => o.sound s' ∧ E e (o.view s')) s

variable {o} {v : ν} {Q : α → ν → Prop} {E : ε → ν → Prop}

theorem does_pure {a : α} (h : Q a v) : o.Does v (pure a : Fallible σ χ ε α) Q E := by
  intro s hv hs
  exact ⟨hs, hv ▸ h⟩

theorem does_throw {e : ε} (h : E e v) : o.Does v (throw e : Fallible σ χ ε α) Q E := by
  intro s hv hs
  exact ⟨hs, hv ▸ h⟩

variable {p : Fallible σ χ ε α} {g : β → Fallible σ χ ε α} {f : σ → χ → Option (Except ε α × σ)}

theorem Does.mono {Q' : α → ν → Prop} {E' : ε → ν → Prop} (h : o.Does v p Q E)
    (hQ : ∀ a v', Q a v' → Q' a v') (hE : ∀ e v', E e v' → E' e v') :
    o.Does v p Q' E' := by
  intro s hv hs
  refine wpe_mono (h s hv hs) ?_ ?_
  · exact fun a s' ⟨hs', hq⟩ => ⟨hs', hQ a _ hq⟩
  · exact fun e s' ⟨hs', he⟩ => ⟨hs', hE e _ he⟩

theorem does_bind {p : Fallible σ χ ε β} (h : o.Does v p (fun b v' => o.Does v' (g b) Q E) E) :
    o.Does v (p >>= g) Q E := by
  intro s hv hs
  refine (wpe_bind p g).mpr (wpe_mono (h s hv hs) ?_ fun _ _ he => he)
  exact fun b s' ⟨hs', hg⟩ => hg s' rfl hs'

theorem does_tryCatch {handler : ε → Fallible σ χ ε α}
    (h : o.Does v p Q (fun e v' => o.Does v' (handler e) Q E)) :
    o.Does v (tryCatch p handler) Q E := by
  intro s hv hs
  refine (wpe_tryCatch p handler).mpr (wpe_mono (h s hv hs) (fun _ _ hq => hq) ?_)
  exact fun e s' ⟨hs', hh⟩ => hh s' rfl hs'

theorem does_map {p : Fallible σ χ ε β} {g : β → α}
    (h : o.Does v p (fun b v' => Q (g b) v') E) : o.Does v (g <$> p) Q E := by
  intro s hv hs
  exact (wpe_map p g).mpr (h s hv hs)

/-- The rule for one action. The environment ran before it, and left the view
as it was. -/
theorem does_atomic (h : ∀ s, o.view s = v → o.sound s → ∀ c r s', f s c = some (r, s') →
      o.sound s' ∧ o.moves v (o.view s') ∧ match r with
        | .ok a => Q a (o.view s')
        | .error e => E e (o.view s')) : o.Does v (atomic f) Q E := by
  intro s hv hs
  rw [wpe_atomic]
  intro s₁ hr c r s' hf
  have hv₁ : o.view s₁ = v := hr.1.trans hv
  obtain ⟨hs', hm, hpost⟩ := h s₁ hv₁ (hr.2 hs) c r s' hf
  refine ⟨?_, ?_⟩
  · rw [Moves, hv₁]
    exact hm
  · cases r with
    | ok a => exact ⟨hs', hpost⟩
    | error e => exact ⟨hs', hpost⟩

/-- `p` leaves the view as it is, whether it answers or throws. -/
def Idle (o : Scope σ ν) (p : Fallible σ χ ε α) : Prop :=
  ∀ v, o.Does v p (fun _ v' => v' = v) (fun _ v' => v' = v)

theorem Idle.does (h : o.Idle p) (hQ : ∀ a, Q a v) (hE : ∀ e, E e v) :
    o.Does v p Q E :=
  (h v).mono (fun a _ heq => heq ▸ hQ a) (fun e _ heq => heq ▸ hE e)

theorem idle_pure (a : α) : o.Idle (pure a : Fallible σ χ ε α) := fun _ => does_pure rfl

theorem idle_throw (e : ε) : o.Idle (throw e : Fallible σ χ ε α) := fun _ => does_throw rfl

theorem Idle.bind {p : Fallible σ χ ε β} (hp : o.Idle p) (hg : ∀ b, o.Idle (g b)) :
    o.Idle (p >>= g) :=
  fun v => does_bind (hp.does (fun b => hg b v) fun _ => rfl)

theorem idle_atomic
    (h : ∀ s c r s', f s c = some (r, s') → o.view s' = o.view s ∧ (o.sound s → o.sound s')) :
    o.Idle (atomic f) := by
  intro v
  refine does_atomic ?_
  intro s hv hs c r s' hf
  obtain ⟨hview, hsound⟩ := h s c r s' hf
  have hview' : o.view s' = v := hview.trans hv
  refine ⟨hsound hs, ?_, ?_⟩
  · rw [hview']
    exact o.moves_refl v
  · cases r with
    | ok a => exact hview'
    | error e => exact hview'

/-- `A` holds of the view when `p` ends, if it held at its start. -/
def Keeps (o : Scope σ ν) (A : ν → Prop) (p : Fallible σ χ ε α) : Prop :=
  ∀ v, A v → o.Does v p (fun _ => A) (fun _ => A)

variable {A : ν → Prop}

theorem Idle.keeps (h : o.Idle p) : o.Keeps A p :=
  fun _ hv => h.does (fun _ => hv) fun _ => hv

theorem Keeps.bind {p : Fallible σ χ ε β} (hp : o.Keeps A p) (hg : ∀ b, o.Keeps A (g b)) :
    o.Keeps A (p >>= g) :=
  fun v hv => does_bind ((hp v hv).mono (fun b v' hv' => hg b v' hv') fun _ _ h => h)

end Scope

/-- A program that only reads is idle in every scope. -/
theorem Reads.idle {o : Scope σ ν} {p : Fallible σ χ ε α} (h : Reads p) : o.Idle p := by
  intro v s hv hs
  have hstable : ∀ s s', o.view s = v ∧ o.sound s → o.Others s s' → o.view s' = v ∧ o.sound s' :=
    fun s s' ⟨hv, hs⟩ hr => ⟨hr.1.trans hv, hr.2 hs⟩
  refine wp_guarantee (Reads.wpe hstable h ⟨hv, hs⟩) ?_ ?_
  · rintro s s' ⟨rfl, -⟩
    exact o.moves_refl _
  · rintro (e | a) s' ⟨hv', hs'⟩
    · exact ⟨hs', hv'⟩
    · exact ⟨hs', hv'⟩

variable {o : Scope σ ν} {p : Fallible σ χ ε α}

theorem Reads.does {v : ν} {Q : α → ν → Prop} {E : ε → ν → Prop} (h : Reads p) (hQ : ∀ a, Q a v)
    (hE : ∀ e, E e v) : o.Does v p Q E :=
  h.idle.does hQ hE

theorem Reads.keeps {A : ν → Prop} (h : Reads p) : o.Keeps A p := h.idle.keeps

end FerrumNexus.Saga
