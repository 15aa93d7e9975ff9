import Mathlib.Tactic

/-!
# Steps that are taken again from the first

A list of steps is performed in order, and may stop after any of them, with the
step it stopped at landed or not. What has been performed is then performed
again from the first step. Where a step that has landed is settled, stays
settled under the other steps, and a settled step changes nothing, the repeated
prefix changes nothing either: a performance that goes through ends where one
that was never stopped ends.
-/
namespace FerrumNexus.Sequences

variable {T S : Type}

/-- All steps in order, unless one fails. -/
def performAll (perform : T → S → Option S) (steps : List T) (s : S) : Option S :=
  steps.foldlM (fun s step => perform step s) s

/-- Some of the steps were performed, and the next one may have landed. -/
def Partway (perform : T → S → Option S) (lands : T → S → S → Prop) (steps : List T)
    (s s' : S) : Prop :=
  (∃ front rest, steps = front ++ rest ∧ performAll perform front s = some s') ∨
  ∃ front step rest middle, steps = front ++ step :: rest ∧
    performAll perform front s = some middle ∧ lands step middle s'

/-- What has to hold of the steps for that. -/
structure Replayable (perform : T → S → Option S) (lands : T → S → S → Prop)
    (settled : T → S → Prop) (apart : T → T → Prop) (allowed : T → Prop) : Prop where
  performed : ∀ step s s', allowed step → perform step s = some s' → settled step s'
  landed : ∀ step s s', allowed step → lands step s s' → settled step s'
  kept_performed : ∀ step other s s', allowed other → apart step other → settled step s →
    perform other s = some s' → settled step s'
  kept_landed : ∀ step other s s', allowed other → apart step other → settled step s →
    lands other s s' → settled step s'
  skipped : ∀ step s s', settled step s → perform step s = some s' → s' = s
  not_landed : ∀ step s s', settled step s → lands step s s' → s' = s
  resumed : ∀ step s s' s'', allowed step → lands step s s' → perform step s' = some s'' →
    perform step s = some s''

section Performing

variable {perform : T → S → Option S}

@[simp] theorem performAll_nil (s : S) : performAll perform [] s = some s := rfl

theorem performAll_cons (step : T) (steps : List T) (s : S) :
    performAll perform (step :: steps) s = (perform step s).bind (performAll perform steps) := rfl

theorem performAll_append (front rest : List T) (s : S) :
    performAll perform (front ++ rest) s =
      (performAll perform front s).bind (performAll perform rest) :=
  List.foldlM_append

theorem performAll_singleton (step : T) (s : S) : performAll perform [step] s = perform step s := by
  rw [performAll_cons]
  cases perform step s <;> rfl

variable {lands : T → S → S → Prop}

theorem Partway.refl (steps : List T) (s : S) : Partway perform lands steps s s :=
  Or.inl ⟨[], steps, rfl, rfl⟩

theorem Partway.cons {step : T} {steps : List T} {s next s' : S} (hstep : perform step s = some next)
    (h : Partway perform lands steps next s') : Partway perform lands (step :: steps) s s' := by
  rcases h with ⟨front, rest, rfl, hfront⟩ | ⟨front, last, rest, middle, rfl, hfront, hlands⟩
  · refine Or.inl ⟨step :: front, rest, rfl, ?_⟩
    rw [performAll_cons, hstep]
    exact hfront
  · refine Or.inr ⟨step :: front, last, rest, middle, rfl, ?_, hlands⟩
    rw [performAll_cons, hstep]
    exact hfront

theorem Partway.of_performAll {steps : List T} {s s' : S}
    (h : performAll perform steps s = some s') : Partway perform lands steps s s' :=
  Or.inl ⟨steps, [], (List.append_nil steps).symm, h⟩

variable {settled : T → S → Prop} {apart : T → T → Prop} {allowed : T → Prop}

namespace Replayable

variable {s s' s'' : S} {front steps : List T}

/-- Steps that are settled change nothing. -/
theorem performAll_settled (h : Replayable perform lands settled apart allowed)
    (hsettled : ∀ step ∈ steps, settled step s) (hall : performAll perform steps s = some s') :
    s' = s := by
  induction steps with
  | nil => exact (Option.some_inj.mp hall).symm
  | cons step steps ih =>
    rw [performAll_cons] at hall
    obtain ⟨next, hnext, hrest⟩ := Option.bind_eq_some_iff.mp hall
    obtain rfl := h.skipped step s next (hsettled step List.mem_cons_self) hnext
    exact ih (fun other hother => hsettled other (List.mem_cons_of_mem step hother)) hrest

/-- What was performed is settled. -/
theorem settled_of_performAll (h : Replayable perform lands settled apart allowed)
    (hallowed : ∀ step ∈ steps, allowed step) (hapart : steps.Pairwise apart)
    (hall : performAll perform steps s = some s') : ∀ step ∈ steps, settled step s' := by
  induction steps using List.reverseRecOn generalizing s' with
  | nil => exact fun step hstep => absurd hstep List.not_mem_nil
  | append_singleton steps last ih =>
    rw [performAll_append] at hall
    obtain ⟨middle, hmiddle, hlast⟩ := Option.bind_eq_some_iff.mp hall
    rw [performAll_singleton] at hlast
    obtain ⟨hbefore, -, hcross⟩ := List.pairwise_append.mp hapart
    have hlastAllowed : allowed last := hallowed last (by simp)
    have hsettled := ih (fun step hstep => hallowed step (List.mem_append_left _ hstep)) hbefore
      hmiddle
    intro step hstep
    rcases List.mem_append.mp hstep with hold | hnew
    · exact h.kept_performed step last middle s' hlastAllowed
        (hcross step hold last List.mem_cons_self) (hsettled step hold) hlast
    · obtain rfl := List.mem_singleton.mp hnew
      exact h.performed step middle s' hlastAllowed hlast

/-- The front of the steps is settled after a partial performance, the step that landed too. -/
theorem settled_of_lands (h : Replayable perform lands settled apart allowed) {step : T}
    {rest : List T} (hallowed : ∀ other ∈ front ++ step :: rest, allowed other)
    (hapart : (front ++ step :: rest).Pairwise apart) {middle : S}
    (hfront : performAll perform front s = some middle) (hlands : lands step middle s') :
    ∀ other ∈ front ++ [step], settled other s' := by
  obtain ⟨hbefore, -, hcross⟩ := List.pairwise_append.mp hapart
  have hallowedStep : allowed step := hallowed step (by simp)
  have hsettled := h.settled_of_performAll
    (fun other hother => hallowed other (List.mem_append_left _ hother)) hbefore hfront
  intro other hother
  rcases List.mem_append.mp hother with hold | hnew
  · exact h.kept_landed other step middle s' hallowedStep
      (hcross other hold step List.mem_cons_self) (hsettled other hold) hlands
  · obtain rfl := List.mem_singleton.mp hnew
    exact h.landed other middle s' hallowedStep hlands

/-- Where a performance stopped, a front of the steps is settled; and if that front goes through
again, then the performance has been through it. -/
theorem settled_front (h : Replayable perform lands settled apart allowed)
    (hallowed : ∀ step ∈ steps, allowed step) (hapart : steps.Pairwise apart)
    (hpartway : Partway perform lands steps s s') :
    ∃ front rest, steps = front ++ rest ∧ (∀ step ∈ front, settled step s') ∧
      ∀ again, performAll perform front s' = some again → performAll perform front s = some s' := by
  rcases hpartway with ⟨front, rest, rfl, hfront⟩ | ⟨front, step, rest, middle, rfl, hfront, hlands⟩
  · refine ⟨front, rest, rfl, ?_, fun _ _ => hfront⟩
    exact h.settled_of_performAll (fun other hother => hallowed other (List.mem_append_left _ hother))
      (List.pairwise_append.mp hapart).1 hfront
  · have hsettled := h.settled_of_lands hallowed hapart hfront hlands
    refine ⟨front ++ [step], rest, by simp, hsettled, fun again hagain => ?_⟩
    have hsame := h.performAll_settled hsettled hagain
    rw [performAll_append] at hagain ⊢
    obtain ⟨next, hnext, hstep⟩ := Option.bind_eq_some_iff.mp hagain
    obtain rfl := h.performAll_settled
      (fun other hother => hsettled other (List.mem_append_left _ hother)) hnext
    rw [performAll_singleton] at hstep
    rw [hfront, Option.bind_some, performAll_singleton,
      h.resumed step middle next again (hallowed step (by simp)) hlands hstep, hsame]

/-- What is performed from where a performance stopped, beyond the settled front, is performed from
the start. -/
theorem performAll_beyond (h : Replayable perform lands settled apart allowed) {more : List T}
    (hsettled : ∀ step ∈ front, settled step s')
    (hagain : ∀ again, performAll perform front s' = some again →
      performAll perform front s = some s')
    (hall : performAll perform (front ++ more) s' = some s'') :
    performAll perform (front ++ more) s = some s'' := by
  rw [performAll_append] at hall ⊢
  obtain ⟨next, hnext, hrest⟩ := Option.bind_eq_some_iff.mp hall
  obtain rfl := h.performAll_settled hsettled hnext
  rw [hagain next hnext]
  exact hrest

/-- Going through from where a performance stopped is going through from the start. -/
theorem performAll_of_partway (h : Replayable perform lands settled apart allowed)
    (hallowed : ∀ step ∈ steps, allowed step) (hapart : steps.Pairwise apart)
    (hpartway : Partway perform lands steps s s') (hall : performAll perform steps s' = some s'') :
    performAll perform steps s = some s'' := by
  obtain ⟨front, rest, rfl, hsettled, hagain⟩ := h.settled_front hallowed hapart hpartway
  exact h.performAll_beyond hsettled hagain hall

/-- Two partial performances, one after the other, are one. -/
theorem partway_trans (h : Replayable perform lands settled apart allowed)
    (hallowed : ∀ step ∈ steps, allowed step) (hapart : steps.Pairwise apart)
    (hfirst : Partway perform lands steps s s') (hsecond : Partway perform lands steps s' s'') :
    Partway perform lands steps s s'' := by
  obtain ⟨front, rest, hsteps, hsettled, hagain⟩ := h.settled_front hallowed hapart hfirst
  have hprefix : front <+: steps := ⟨rest, hsteps.symm⟩
  rcases hsecond with ⟨taken, left, htaken, hall⟩ | ⟨taken, step, left, middle, htaken, hall, hlands⟩
  · rcases List.prefix_or_prefix_of_prefix hprefix ⟨left, htaken.symm⟩ with hlong | hshort
    · obtain ⟨more, rfl⟩ := hlong
      exact Or.inl ⟨front ++ more, left, htaken, h.performAll_beyond hsettled hagain hall⟩
    · obtain rfl := h.performAll_settled
        (fun other hother => hsettled other (hshort.subset hother)) hall
      exact hfirst
  · have hlast : taken ++ [step] <+: steps := ⟨left, by rw [htaken]; simp⟩
    have hinside (hshort : taken ++ [step] <+: front) : s'' = s' := by
      obtain rfl := h.performAll_settled
        (fun other hother => hsettled other (hshort.subset (List.mem_append_left _ hother))) hall
      exact h.not_landed step middle s'' (hsettled step (hshort.subset (by simp))) hlands
    rcases List.prefix_or_prefix_of_prefix hprefix hlast with hlong | hshort
    · rcases List.prefix_concat_iff.mp hlong with heq | hbefore
      · obtain rfl := hinside (heq ▸ List.prefix_rfl)
        exact hfirst
      · obtain ⟨more, rfl⟩ := hbefore
        exact Or.inr ⟨front ++ more, step, left, middle, htaken,
          h.performAll_beyond hsettled hagain hall, hlands⟩
    · obtain rfl := hinside hshort
      exact hfirst

end Replayable

end Performing

end FerrumNexus.Sequences
