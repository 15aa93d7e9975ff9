import Mathlib.Tactic

/-!
# Programs as trees of atomic actions

A saga is a program that touches a shared state in separate atomic actions,
with no transaction around them. An action sees the state and an adversary's
choice, which decides how the action fails, and answers with a value and the
next state, or with `none` while it is blocked. Weakest preconditions are
taken under a rely, the changes other programs may make before each action,
and a guarantee, a relation every action of this program satisfies. With
equality as the rely they describe a program that runs alone.
-/
namespace FerrumNexus.Saga

/-- A program over the state `σ`, with one adversarial choice in `χ` for each
action. The tree is finite in depth; a loop without a bound is a family of
programs indexed by its fuel. -/
inductive Program (σ χ : Type) (α : Type) : Type 1
  | done (a : α)
  | action {β : Type} (f : σ → χ → Option (β × σ)) (k : β → Program σ χ α)

namespace Program

variable {σ χ α β γ : Type}

def bind : Program σ χ α → (α → Program σ χ β) → Program σ χ β
  | done a, g => g a
  | action f k, g => action f (fun b => (k b).bind g)

instance : Monad (Program σ χ) where
  pure := done
  bind := bind

@[simp] theorem pure_eq (a : α) : (pure a : Program σ χ α) = done a := rfl

@[simp] theorem done_bind (a : α) (g : α → Program σ χ β) : (done a >>= g) = g a := rfl

@[simp] theorem action_bind (f : σ → χ → Option (γ × σ)) (k : γ → Program σ χ α)
    (g : α → Program σ χ β) : (action f k >>= g) = action f (fun b => k b >>= g) := rfl

theorem bind_done (p : Program σ χ α) : p.bind done = p := by
  induction p with
  | done a => rfl
  | action f k ih =>
    simp only [bind]
    congr 1
    funext b
    exact ih b

theorem bind_bind (p : Program σ χ α) (g : α → Program σ χ β) (h : β → Program σ χ γ) :
    (p.bind g).bind h = p.bind fun a => (g a).bind h := by
  induction p with
  | done a => rfl
  | action f k ih =>
    simp only [bind]
    congr 1
    funext b
    exact ih b

instance : LawfulMonad (Program σ χ) :=
  LawfulMonad.mk' (Program σ χ) bind_done (fun _ _ => rfl) bind_bind

/-- Run alone to the end, consuming one choice for each action. -/
def exec : Program σ χ α → List χ → σ → Option (α × σ)
  | done a, _, s => some (a, s)
  | action _ _, [], _ => none
  | action f k, c :: cs, s =>
    match f s c with
    | none => none
    | some (b, s') => (k b).exec cs s'

/-- Run alone for a while: what is left of the program, and the state. -/
def advance : Program σ χ α → List χ → σ → Option (Program σ χ α × σ)
  | p, [], s => some (p, s)
  | done _, _ :: _, _ => none
  | action f k, c :: cs, s =>
    match f s c with
    | none => none
    | some (b, s') => (k b).advance cs s'

/-- Whether the next action leads to a state `P` accepts. -/
def next (P : σ → Bool) (c : χ) : Program σ χ α → σ → Bool
  | done _, _ => false
  | action f _, s => (f s c).any fun answer => P answer.2

/-- The program on the choices `fair` accepts; the others block it. -/
def limit (fair : χ → Bool) : Program σ χ α → Program σ χ α
  | done a => done a
  | action f k =>
    action (fun s c => if fair c then f s c else none) fun b => (k b).limit fair

theorem limit_bind (fair : χ → Bool) (p : Program σ χ α) (g : α → Program σ χ β) :
    (p >>= g).limit fair = p.limit fair >>= fun a => (g a).limit fair := by
  induction p with
  | done a => rfl
  | action f k ih =>
    simp only [action_bind, limit]
    congr 1
    funext b
    exact ih b

/-- From `s` the program may end in `s'` with the answer `a`, others moving the
state within `R` before each of its actions. -/
inductive Ends (R : σ → σ → Prop) : Program σ χ α → σ → α → σ → Prop
  | done {s : σ} (a : α) : Ends R (.done a) s a s
  | action {s s₁ s₂ s' : σ} {β : Type} {f : σ → χ → Option (β × σ)} {k : β → Program σ χ α} {b : β}
      {a : α} (c : χ) (hr : R s s₁) (hf : f s₁ c = some (b, s₂)) (h : Ends R (k b) s₂ a s') :
      Ends R (.action f k) s a s'

theorem ends_of_exec {R : σ → σ → Prop} (hrefl : ∀ s, R s s) {p : Program σ χ α} {cs : List χ}
    {s s' : σ} {a : α} (h : p.exec cs s = some (a, s')) : Ends R p s a s' := by
  induction p generalizing cs s with
  | done a =>
    cases h
    exact .done a
  | action f k ih =>
    cases cs with
    | nil => cases h
    | cons c cs =>
      simp only [exec] at h
      split at h
      · contradiction
      · rename_i b s₁ hf
        exact .action c (hrefl s) hf (ih b h)

end Program

section Wp

variable {σ χ α β : Type} (R G : σ → σ → Prop)

/-- Weakest precondition: whatever the environment does before each action
within `R`, every action satisfies `G`, and the result satisfies `Q`. -/
def wp : Program σ χ α → (α → σ → Prop) → σ → Prop
  | .done a, Q, s => Q a s
  | .action f k, Q, s =>
    ∀ s₁, R s s₁ → ∀ c b s', f s₁ c = some (b, s') → G s₁ s' ∧ wp (k b) Q s'

variable {R G}

@[simp] theorem wp_done (a : α) (Q : α → σ → Prop) (s : σ) :
    wp R G (Program.done a : Program σ χ α) Q s ↔ Q a s := Iff.rfl

theorem wp_action (f : σ → χ → Option (β × σ)) (k : β → Program σ χ α)
    (Q : α → σ → Prop) (s : σ) :
    wp R G (.action f k) Q s ↔ ∀ s₁, R s s₁ → ∀ c b s',
      f s₁ c = some (b, s') → G s₁ s' ∧ wp R G (k b) Q s' := Iff.rfl

theorem wp_bind (p : Program σ χ α) (g : α → Program σ χ β) (Q : β → σ → Prop) (s : σ) :
    wp R G (p >>= g) Q s ↔ wp R G p (fun a s' => wp R G (g a) Q s') s := by
  induction p generalizing s with
  | done a => rfl
  | action f k ih =>
    simp only [Program.action_bind, wp_action]
    constructor
    · intro h s₁ hr c b s' hf
      exact ⟨(h s₁ hr c b s' hf).1, (ih b s').mp (h s₁ hr c b s' hf).2⟩
    · intro h s₁ hr c b s' hf
      exact ⟨(h s₁ hr c b s' hf).1, (ih b s').mpr (h s₁ hr c b s' hf).2⟩

variable {Q Q' : α → σ → Prop} {p : Program σ χ α} {s s' : σ}

theorem wp_guarantee {G' : σ → σ → Prop} (h : wp R G p Q s) (hG : ∀ s s', G s s' → G' s s')
    (hq : ∀ a s, Q a s → Q' a s) :
    wp R G' p Q' s := by
  induction p generalizing s with
  | done a => exact hq a s h
  | action f k ih =>
    intro s₁ hr c b s' hf
    obtain ⟨hg, hk⟩ := h s₁ hr c b s' hf
    exact ⟨hG _ _ hg, ih b hk⟩

theorem wp_mono (h : wp R G p Q s) (hq : ∀ a s, Q a s → Q' a s) : wp R G p Q' s :=
  wp_guarantee h (fun _ _ hg => hg) hq

/-- What holds of every run holds of the one that executes. -/
theorem wp_exec (hrefl : ∀ s, R s s) {cs : List χ} {a : α} (h : wp R G p Q s)
    (he : p.exec cs s = some (a, s')) : Q a s' := by
  induction p generalizing cs s with
  | done a =>
    cases he
    exact h
  | action f k ih =>
    cases cs with
    | nil => cases he
    | cons c cs =>
      simp only [Program.exec] at he
      split at he
      · contradiction
      · rename_i b s₁ hf
        exact ih b (h s (hrefl s) c b s₁ hf).2 he

theorem wp_ends {a : α} (h : wp R G p Q s) (he : p.Ends R s a s') : Q a s' := by
  induction he with
  | done a => exact h
  | action c hr hf _ ih => exact ih (h _ hr c _ _ hf).2

theorem wp_limit (fair : χ → Bool) (h : wp R G p Q s) : wp R G (p.limit fair) Q s := by
  induction p generalizing s with
  | done a => exact h
  | action f k ih =>
    intro s₁ hr c b s' hf
    simp only at hf
    split at hf
    · obtain ⟨hg, hk⟩ := h s₁ hr c b s' hf
      exact ⟨hg, ih b hk⟩
    · contradiction

/-- A program that only reads leaves whatever others leave. -/
theorem wp_reads {P : σ → Prop} (hstable : ∀ s s', P s → R s s' → P s')
    (h : wp (fun _ _ => True) Eq p (fun _ _ => True) s) (hs : P s) :
    wp R (fun s s' => s = s' ∧ P s') p (fun _ s' => P s') s := by
  induction p generalizing s with
  | done a => exact hs
  | action f k ih =>
    intro s₁ hr c b s' hf
    obtain ⟨rfl, hk⟩ := h s₁ trivial c b s' hf
    have hs₁ := hstable s s₁ hs hr
    exact ⟨⟨rfl, hs₁⟩, ih b hk hs₁⟩

/-- An action guaranteed from the states of `I` to stay in `I` is guaranteed
along a whole run that starts there. -/
theorem wp_along {I : σ → Prop} (hrefl : ∀ s, R s s)
    (h : wp R (fun s s' => I s → G s s' ∧ I s') p Q s) (hs : I s) :
    wp Eq (fun s s' => G s s' ∧ I s') p Q s := by
  induction p generalizing s with
  | done a => exact h
  | action f k ih =>
    rintro s₁ rfl c b s' hf
    obtain ⟨hguar, hk⟩ := h s (hrefl s) c b s' hf
    exact ⟨hguar hs, ih b hk (hguar hs).2⟩

/-- Where the rely and the guarantee lie within a preorder, so does the whole
program. -/
theorem wp_track {T : σ → σ → Prop} (hrefl : ∀ s, T s s)
    (htrans : ∀ a b c, T a b → T b c → T a c) (hR : ∀ a b, R a b → T a b)
    (hG : ∀ a b, G a b → T a b) (h : wp R G p Q s) : wp R G p (fun a s' => Q a s' ∧ T s s') s := by
  induction p generalizing s with
  | done a => exact ⟨h, hrefl s⟩
  | action f k ih =>
    intro s₁ hr c b s' hf
    obtain ⟨hg, hk⟩ := h s₁ hr c b s' hf
    refine ⟨hg, wp_mono (ih b hk) ?_⟩
    intro a s'' ⟨hq, ht⟩
    exact ⟨hq, htrans _ _ _ (hR _ _ hr) (htrans _ _ _ (hG _ _ hg) ht)⟩

/-- However far a program gets alone, the state moves within a preorder that
holds its guarantee. -/
theorem wp_advance {T : σ → σ → Prop} (hrefl : ∀ s, T s s)
    (htrans : ∀ a b c, T a b → T b c → T a c) {p' : Program σ χ α} {cs : List χ} (h : wp Eq T p Q s)
    (he : p.advance cs s = some (p', s')) : T s s' := by
  induction p generalizing cs s with
  | done a =>
    cases cs with
    | nil =>
      cases he
      exact hrefl _
    | cons c cs => cases he
  | action f k ih =>
    cases cs with
    | nil =>
      cases he
      exact hrefl _
    | cons c cs =>
      simp only [Program.advance] at he
      split at he
      · contradiction
      · rename_i b s₁ hf
        obtain ⟨hstep, hrest⟩ := h s rfl c b s₁ hf
        exact htrans _ _ _ hstep (ih b hrest he)

/-- A pending program survives any further step its rely allows: the rely is
taken before the next action, it is transitive, and the postcondition is stable
under it. -/
theorem wp_env (htrans : ∀ a b c, R a b → R b c → R a c) (hQ : ∀ a s s', Q a s → R s s' → Q a s')
    (h : wp R G p Q s) (hr : R s s') : wp R G p Q s' := by
  cases p with
  | done a => exact hQ a s s' h hr
  | action f k => exact fun s₁ hr₁ => h s₁ (htrans _ _ _ hr hr₁)

end Wp

end FerrumNexus.Saga
