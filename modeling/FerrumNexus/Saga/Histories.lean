import Mathlib.Logic.Basic

/-!
# Histories of events

A system that takes one event at a time, and refuses the events its state does
not allow. Whatever holds at first and survives every accepted event holds
after every history; a relation between the states before and after one event
that composes holds between any two states of one history.
-/
namespace FerrumNexus.Saga.History

variable {σ ι : Type} (step : σ → ι → Option σ)

/-- The state after a list of events, unless one of them is refused. -/
def replay : List ι → σ → Option σ
  | [], s => some s
  | e :: es, s => (step s e).bind (replay es)

/-- What holds of no events, and survives each accepted one with the events so
far, holds of every history. -/
theorem replay_records {step : σ → ι → Option σ} {I : List ι → σ → Prop}
    (hstep : ∀ es s e s', I es s → step s e = some s' → I (es ++ [e]) s') {es : List ι}
    {s s' : σ} (hs : I [] s) (h : replay step es s = some s') : I es s' := by
  suffices hall : ∀ (before : List ι) (s : σ), I before s → replay step es s = some s' →
      I (before ++ es) s' from hall [] s hs h
  clear hs h s
  induction es with
  | nil =>
    intro before s hs h
    have heq : s = s' := Option.some.inj h
    rw [List.append_nil, ← heq]
    exact hs
  | cons e es ih =>
    intro before s hs h
    obtain ⟨s₁, hs₁, hrest⟩ := Option.bind_eq_some_iff.mp h
    have hmore := ih (before ++ [e]) s₁ (hstep before s e s₁ hs hs₁) hrest
    rwa [List.append_assoc] at hmore

/-- An event of a longer history is one of the shorter, or the new one. -/
theorem event_of_concat {es : List ι} {e x : ι} {n : Nat} (h : (es ++ [x])[n]? = some e) :
    es[n]? = some e ∨ n = es.length ∧ x = e := by
  rcases Nat.lt_trichotomy n es.length with hlt | heq | hgt
  · rw [List.getElem?_append_left hlt] at h
    exact Or.inl h
  · subst heq
    rw [List.getElem?_concat_length, Option.some.injEq] at h
    exact Or.inr ⟨rfl, h⟩
  · rw [List.getElem?_eq_none (by rw [List.length_append]; exact hgt)] at h
    cases h

theorem event_concat {es : List ι} {e : ι} {n : Nat} (x : ι) (h : es[n]? = some e) :
    (es ++ [x])[n]? = some e := by
  obtain ⟨hn, -⟩ := List.getElem?_eq_some_iff.mp h
  rw [List.getElem?_append_left hn]
  exact h

/-- Some history leads from `s` to `s'`. -/
def Leads (s s' : σ) : Prop := ∃ es, replay step es s = some s'

variable {step}

theorem Leads.refl (s : σ) : Leads step s s := ⟨[], rfl⟩

theorem Leads.head {s s₁ s' : σ} {e : ι} (he : step s e = some s₁) (h : Leads step s₁ s') :
    Leads step s s' := by
  obtain ⟨es, hes⟩ := h
  exact ⟨e :: es, by rw [replay, he]; exact hes⟩

theorem replay_append (es es' : List ι) (s : σ) :
    replay step (es ++ es') s = (replay step es s).bind (replay step es') := by
  induction es generalizing s with
  | nil => rfl
  | cons e es ih =>
    simp only [List.cons_append, replay]
    cases step s e with
    | none => rfl
    | some s₁ => exact ih s₁

theorem Leads.trans {s s₁ s' : σ} (h : Leads step s s₁) (h' : Leads step s₁ s') :
    Leads step s s' := by
  obtain ⟨es, hes⟩ := h
  obtain ⟨es', hes'⟩ := h'
  exact ⟨es ++ es', by rw [replay_append, hes]; exact hes'⟩

/-- Events that keep `I`, and relate the states before and after by a
composable `T`, do both along every history. -/
theorem Leads.relates {I : σ → Prop} {T : σ → σ → Prop} (hrefl : ∀ s, I s → T s s)
    (htrans : ∀ a b c, T a b → T b c → T a c)
    (hstep : ∀ s e s', I s → step s e = some s' → I s' ∧ T s s') {s s' : σ} (hs : I s)
    (h : Leads step s s') : I s' ∧ T s s' := by
  obtain ⟨es, hes⟩ := h
  induction es generalizing s with
  | nil =>
    have heq : s = s' := Option.some.inj hes
    exact heq ▸ ⟨hs, hrefl s hs⟩
  | cons e es ih =>
    obtain ⟨s₁, hs₁, hrest⟩ := Option.bind_eq_some_iff.mp hes
    have hone := hstep s e s₁ hs hs₁
    have hmore := ih hone.1 hrest
    exact ⟨hmore.1, htrans s s₁ s' hone.2 hmore.2⟩

theorem Leads.invariant {I : σ → Prop} (hstep : ∀ s e s', I s → step s e = some s' → I s')
    {s s' : σ} (hs : I s) (h : Leads step s s') : I s' :=
  (h.relates (T := fun _ _ => True) (fun _ _ => trivial) (fun _ _ _ _ _ => trivial)
    (fun s e s' hs he => ⟨hstep s e s' hs he, trivial⟩) hs).1

end FerrumNexus.Saga.History
