import FerrumNexus.Saga.Runs

/-!
# Fencing tokens and programs on a part of the state

A row that many parties take over in turn carries a token, and every take-over
writes one that was never used. Whoever remembers a token can therefore tell
its own row from every later one, whatever happened in between. The second
half runs a program about one component of a state inside a larger one, where
it can change nothing else.
-/
namespace FerrumNexus.Saga

section Tokens

variable {κ ρ τ : Type} (token : ρ → ℕ) (view : ρ → τ)

/-- A table changed: every row in it carries a new token, at least `fresh`, or
is one it had, with the same token and the same `view`. -/
def Evolves (fresh : ℕ) (rows rows' : κ → Option ρ) : Prop :=
  ∀ key row', rows' key = some row' → fresh ≤ token row' ∨
    ∃ row, rows key = some row ∧ token row = token row' ∧ view row = view row'

variable {token view} {fresh fresh' : ℕ} {rows rows₁ rows' : κ → Option ρ}

theorem Evolves.refl (fresh : ℕ) (rows : κ → Option ρ) : Evolves token view fresh rows rows :=
  fun _ row h => .inr ⟨row, h, rfl, rfl⟩

theorem Evolves.trans (hle : fresh ≤ fresh') (h : Evolves token view fresh rows rows₁)
    (h' : Evolves token view fresh' rows₁ rows') : Evolves token view fresh rows rows' := by
  intro key row' hrow'
  rcases h' key row' hrow' with hnew | ⟨row₁, hrow₁, ht₁, hv₁⟩
  · exact .inl (hle.trans hnew)
  · rcases h key row₁ hrow₁ with hnew | ⟨row, hrow, ht, hv⟩
    · exact .inl (ht₁ ▸ hnew)
    · exact .inr ⟨row, hrow, ht.trans ht₁, hv.trans hv₁⟩

/-- A row found under a token that was in use is the row of that token. -/
theorem Evolves.of_token (h : Evolves token view fresh rows rows') {key : κ} {row' : ρ}
    (hrow' : rows' key = some row') (hlt : token row' < fresh) :
    ∃ row, rows key = some row ∧ token row = token row' ∧ view row = view row' := by
  rcases h key row' hrow' with hnew | hold
  · omega
  · exact hold

/-- One row rewritten under its token, or under a new one. -/
theorem Evolves.update [DecidableEq κ] {key : κ} {row' : ρ}
    (h : fresh ≤ token row' ∨
      ∃ row, rows key = some row ∧ token row = token row' ∧ view row = view row') :
    Evolves token view fresh rows (Function.update rows key (some row')) := by
  intro key' row'' hrow''
  by_cases hkey : key' = key
  · subst hkey
    rw [Function.update_self, Option.some.injEq] at hrow''
    exact hrow'' ▸ h
  · rw [Function.update_of_ne hkey] at hrow''
    exact .inr ⟨row'', hrow'', rfl, rfl⟩

theorem Evolves.erase [DecidableEq κ] (fresh : ℕ) (rows : κ → Option ρ) (key : κ) :
    Evolves token view fresh rows (Function.update rows key none) := by
  intro key' row' hrow'
  by_cases hkey : key' = key
  · subst hkey
    rw [Function.update_self] at hrow'
    cases hrow'
  · rw [Function.update_of_ne hkey] at hrow'
    exact .inr ⟨row', hrow', rfl, rfl⟩

end Tokens

section Zoom

variable {σ ω χ ε α : Type} (get : σ → ω) (set : ω → σ → σ)

/-- A program on a component, run inside the whole state. -/
def Program.zoom : Program ω χ α → Program σ χ α
  | .done a => .done a
  | .action f k =>
    .action (fun s c => (f (get s) c).map fun r => (r.1, set r.2 s)) fun b => (k b).zoom

def Fallible.zoom (p : Fallible ω χ ε α) : Fallible σ χ ε α :=
  ExceptT.mk (Program.zoom get set p.run)

variable {get set} {R G : σ → σ → Prop} {I : σ → Prop}

/-- What no change of the component disturbs holds when its program ends. -/
theorem wp_zoom {p : Program ω χ α} (hR : ∀ s s', I s → R s s' → I s')
    (hset : ∀ s w, I s → G s (set w s) ∧ I (set w s)) {s : σ} (hs : I s) :
    wp R G (p.zoom get set) (fun _ s' => I s') s := by
  induction p generalizing s with
  | done a => exact hs
  | action f k ih =>
    intro s₁ hr c b s' hf
    obtain ⟨r, -, hb⟩ := Option.map_eq_some_iff.mp hf
    cases hb
    have hs₁ := hset s₁ r.2 (hR s s₁ hs hr)
    exact ⟨hs₁.1, ih r.1 hs₁.2⟩

theorem wpe_zoom {p : Fallible ω χ ε α} (hR : ∀ s s', I s → R s s' → I s')
    (hset : ∀ s w, I s → G s (set w s) ∧ I (set w s)) {s : σ} (hs : I s) :
    wpe R G (Fallible.zoom get set p) (fun _ s' => I s') (fun _ s' => I s') s := by
  refine wp_mono (wp_zoom hR hset hs) ?_
  rintro (e | a) s' h
  · exact h
  · exact h

end Zoom

end FerrumNexus.Saga
