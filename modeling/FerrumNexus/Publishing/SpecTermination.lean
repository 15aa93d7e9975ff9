import FerrumNexus.Publishing.SpecExploration

/-!
# The comparison ends

Two objects are compared once in each direction, so the recursion goes no deeper
than there are pairs of objects, and a pair of references is queued under a key
that stays queued, so the queue is no longer than that either. The two memos are
also what was expanded: no pair of objects and no queued pair is expanded twice.
-/
namespace FerrumNexus.Publishing.SpecChanges

open OpenApi Platform Saga Metered

variable {ι κ : Type}

/-! ## What has been explored -/

section Events

variable {α β : Type} {f : α → Option β} {events : List α} {e : α}

theorem events_silent (h : f e = none) : (events ++ [e]).filterMap f = events.filterMap f := by
  rw [List.filterMap_append, List.filterMap_cons_none h, List.filterMap_nil, List.append_nil]

theorem events_shown {b : β} (h : f e = some b) :
    (events ++ [e]).filterMap f = events.filterMap f ++ [b] := by
  rw [List.filterMap_append, List.filterMap_cons_some h, List.filterMap_nil]

end Events

section Explored

variable (before : Document ι) (after : Document κ)

/-- The references of a pair of Reference Objects. -/
def pairRefs (pair : ι × κ × Direction) : Option (String × String × Direction) := do
  let fromRef ← before.refOf pair.1
  let toRef ← after.refOf pair.2.1
  pure (fromRef, toRef, pair.2.2)

/-- The key it is queued under. -/
def pairKey (pair : ι × κ × Direction) : Option String :=
  (pairRefs before after pair).map fun refs => componentKey refs.2.2 refs.1 refs.2.1

/-- The memos are sound and say what was expanded, the first `index` items of the
queue among it. -/
structure Explored (index : ℕ) (s : Comparison ι κ) (events : List (Event ι κ)) : Prop where
  soundBefore : SoundOutcomes before false s.before.refs
  soundAfter : SoundOutcomes after false s.after.refs
  schemaPairs : events.filterMap Event.schemaPair? = s.comparedPairs
  compared : s.comparedPairs.Nodup
  queued : s.pendingComponents.map (fun pending => pairKey before after pending.pair) =
    s.queuedComponents.map some
  queuedOnce : s.queuedComponents.Nodup
  met : ∀ pair ∈ events.filterMap Event.referencePair?,
    ∃ key ∈ s.queuedComponents, pairKey before after pair = some key
  drained : index ≤ s.pendingComponents.length
  componentPairs : events.filterMap Event.componentPair? =
    (s.pendingComponents.map PendingComponent.pair).take index

end Explored

section Bounds

variable {before : Document ι} {after : Document κ} {index : ℕ} {s : Comparison ι κ}
  {events : List (Event ι κ)}

theorem Explored.pending_nodup (h : Explored before after index s events) :
    (s.pendingComponents.map PendingComponent.pair).Nodup := by
  have hkeys : (s.pendingComponents.map fun pending => pairKey before after pending.pair).Nodup := by
    rw [h.queued]
    exact h.queuedOnce.map (Option.some_injective String)
  apply List.Nodup.of_map (pairKey before after)
  rwa [List.map_map]

theorem Explored.fresh : Explored before after 0 (.fresh : Comparison ι κ) [] where
  soundBefore := Sequences.Chains.sound_empty
  soundAfter := Sequences.Chains.sound_empty
  schemaPairs := rfl
  compared := List.nodup_nil
  queued := rfl
  queuedOnce := List.nodup_nil
  met pair h := by cases h
  drained := le_rfl
  componentPairs := rfl

variable [Fintype ι] [Fintype κ]

theorem Explored.pending_le (h : Explored before after index s events) :
    s.pendingComponents.length < fuel before after := by
  have hle := h.pending_nodup.length_le_card
  rw [List.length_map] at hle
  rw [fuel]
  omega

theorem Explored.compared_le (h : Explored before after index s events) :
    s.comparedPairs.length < fuel before after := by
  have hle := h.compared.length_le_card
  rw [fuel]
  omega

end Bounds

/-! ## Steps -/

section Payments

variable {before : Document ι} {after : Document κ} {index : ℕ}

/-- Neither a change nor a payment touches the memos of what was explored. -/
theorem neutral_explored {P : List (ι × κ × Direction) → List (PendingComponent ι κ) → Prop} :
    Neutral fun s events =>
      Explored before after index s events ∧ P s.comparedPairs s.pendingComponents where
  change c h :=
    ⟨{ h.1 with
      schemaPairs := (events_silent rfl).trans h.1.schemaPairs
      met := by
        rw [events_silent rfl]
        exact h.1.met
      componentPairs := (events_silent rfl).trans h.1.componentPairs }, h.2⟩
  keyText charge h := ⟨{ h.1 with }, h.2⟩
  pointerText charge h := ⟨{ h.1 with }, h.2⟩

/-- The queue has been drained to its end. -/
def Drained (before : Document ι) (after : Document κ) : Invariant ι κ := fun s events =>
  Explored before after s.pendingComponents.length s events

theorem neutral_drained : Neutral (Drained before after) where
  change c h := (neutral_explored (P := fun _ _ => True)).change c ⟨h, trivial⟩ |>.1
  keyText charge h := (neutral_explored (P := fun _ _ => True)).keyText charge ⟨h, trivial⟩ |>.1
  pointerText charge h := (neutral_explored (P := fun _ _ => True)).pointerText charge ⟨h, trivial⟩ |>.1

end Payments

section Steps

variable [Fintype ι] [Fintype κ]

/-- `depth` is more than the pairs of objects still to compare. -/
def Within (before : Document ι) (after : Document κ) (depth index : ℕ) : Invariant ι κ :=
  fun s events => Explored before after index s events ∧
    fuel before after ≤ depth + s.comparedPairs.length

variable {before : Document ι} {after : Document κ} {depth index : ℕ}

theorem neutral_within : Neutral (Within before after depth index) :=
  neutral_explored (P := fun compared _ => fuel before after ≤ depth + compared.length)

theorem beforeSide_within : SideStable (Within before after depth index) (beforeSide before) where
  toNeutral := neutral_within
  sound h := h.1.soundBefore
  update h hsound := ⟨{ h.1 with soundBefore := hsound }, h.2⟩

theorem afterSide_within : SideStable (Within before after depth index) (afterSide after) where
  toNeutral := neutral_within
  sound h := h.1.soundAfter
  update h hsound := ⟨{ h.1 with soundAfter := hsound }, h.2⟩

theorem keeps_queue {left : ι} {right : κ} {direction : Direction} {fromRef toRef : String}
    (hleft : before.refOf left = some fromRef) (hright : after.refOf right = some toRef) :
    Keeps (Within before after depth index)
      (.record (.referencePair (left, right, direction)) (.done ()) >>= fun _ =>
        queueComponent left right direction fromRef toRef) := by
  have hkey : pairKey before after (left, right, direction) =
      some (componentKey direction fromRef toRef) := by
    simp [pairKey, pairRefs, hleft, hright]
  rintro s events ⟨h, hdepth⟩
  simp only [queueComponent, record_bind, done_bind, Holds]
  have hshown : ∀ queued : List String, componentKey direction fromRef toRef ∈ queued →
      (∀ key ∈ s.queuedComponents, key ∈ queued) →
      ∀ pair ∈ (events ++ [Event.referencePair (left, right, direction)]).filterMap
          Event.referencePair?,
        ∃ key ∈ queued, pairKey before after pair = some key := by
    intro queued hmem hsub pair hpair
    rw [events_shown (f := Event.referencePair?) rfl, List.mem_append, List.mem_singleton] at hpair
    rcases hpair with hpair | rfl
    · obtain ⟨key, hkey, hpair⟩ := h.met pair hpair
      exact ⟨key, hsub key hkey, hpair⟩
    · exact ⟨_, hmem, hkey⟩
  split
  · rename_i hknown
    exact ⟨{ h with
      schemaPairs := (events_silent rfl).trans h.schemaPairs
      met := hshown _ hknown fun _ h => h
      componentPairs := (events_silent rfl).trans h.componentPairs }, hdepth⟩
  · rename_i hnew
    refine ⟨{ h with
      schemaPairs := (events_silent rfl).trans h.schemaPairs
      queued := ?_
      queuedOnce := ?_
      met := hshown _ (List.mem_append_right _ List.mem_cons_self)
        fun _ h => List.mem_append_left _ h
      drained := ?_
      componentPairs := ?_ }, hdepth⟩
    · simp only [List.map_append, h.queued, List.map_cons, List.map_nil]
      rw [← hkey]
      rfl
    · dsimp only
      rw [← List.concat_eq_append]
      exact h.queuedOnce.concat hnew
    · rw [List.length_append]
      exact h.drained.trans (Nat.le_add_right _ _)
    · have hlength : index ≤ (s.pendingComponents.map PendingComponent.pair).length := by
        rw [List.length_map]
        exact h.drained
      rw [events_silent rfl, h.componentPairs, List.map_append, List.take_append_of_le_length hlength]

theorem stable_within : Stable before after (Within before after depth index) where
  beforeSide := beforeSide_within
  afterSide := afterSide_within
  queue := keeps_queue

variable [DecidableEq ι] [DecidableEq κ] {texts : Texts}

/-- The comparison of two objects takes a pair from those still to compare, and
what it goes on to has one less. -/
theorem keeps_compareResolved (left : ι) (right : κ) (place : Place) (path : String)
    (direction : Direction) :
    Keeps (Within before after depth index)
      (compareResolved texts before after depth left right place path direction) := by
  induction depth generalizing left right place path direction with
  | zero =>
    rintro s events ⟨h, hdepth⟩
    have hlt := h.compared_le
    omega
  | succ depth ih =>
    rintro s events ⟨h, hdepth⟩
    rw [compareResolved]
    by_cases hknown : (left, right, direction) ∈ s.comparedPairs
    · simp only [alreadyCompared, step_bind, Holds, if_pos hknown, done_bind, if_true]
      exact ⟨h, hdepth⟩
    · simp only [alreadyCompared, step_bind, Holds, if_neg hknown, done_bind, record_bind]
      rw [if_neg Bool.false_ne_true]
      have hstable : Stable before after (Within before after depth index) := stable_within
      -- the pair is marked and recorded before anything else
      have hmarked : Within before after depth index
          { s with comparedPairs := s.comparedPairs ++ [(left, right, direction)] }
          (events ++ [.schemaPair (left, right, direction)]) := by
        refine ⟨{ h with
          schemaPairs := ?_
          compared := ?_
          met := ?_
          componentPairs := (events_silent rfl).trans h.componentPairs }, ?_⟩
        · rw [events_shown (f := Event.schemaPair?) rfl, h.schemaPairs]
        · dsimp only
          rw [← List.concat_eq_append]
          exact h.compared.concat hknown
        · rw [events_silent rfl]
          exact h.met
        · rw [List.length_append, List.length_singleton]
          omega
      have hrest : Keeps (Within before after depth index) (do
          compareTypes before after left right place path direction
          compareEnums texts before after left right place path direction
          Metered.each (compareComposition before after (compareResolved texts before after depth)
            left right place path direction) COMPOSITIONS
          compareItems before after (compareResolved texts before after depth) left right place path
            direction
          compareMembers texts before after (compareResolved texts before after depth) left right place
            path direction) := by
        apply (hstable.compareTypes left right place path direction).bind
        intro _
        apply (hstable.compareEnums left right place path direction).bind
        intro _
        apply (keeps_each fun _ _ => hstable.compareComposition ih _ _ _ _ _ _).bind
        intro _
        apply (hstable.compareItems ih left right place path direction).bind
        intro _
        exact hstable.compareMembers ih left right place path direction
      apply (hrest _ _ hmarked).mono
      rintro _ s' events' ⟨h', hdepth'⟩
      exact ⟨h', by omega⟩

end Steps

/-! ## The queue and the operations -/

section Runs

variable [Fintype ι] [Fintype κ]
variable {texts : Texts} {before : Document ι} {after : Document κ} {events : List (Event ι κ)}

theorem within_fuel {index : ℕ} {s : Comparison ι κ} (h : Explored before after index s events) :
    Within before after (fuel before after) index s events :=
  ⟨h, Nat.le_add_right _ _⟩

variable [DecidableEq ι] [DecidableEq κ]

/-- One item: it is expanded, and what it queues comes after. -/
theorem holds_compareComponent {index : ℕ} {s : Comparison ι κ} {pending : PendingComponent ι κ}
    (h : Explored before after index s events)
    (hpending : s.pendingComponents[index]? = some pending) :
    Holds (fun _ s events => Explored before after (index + 1) s events)
      (compareComponent texts before after pending) s events := by
  have hlt : index < s.pendingComponents.length := (List.getElem?_eq_some_iff.mp hpending).1
  have hexpanded : Explored before after (index + 1) s
      (events ++ [.componentPair pending.pair]) := by
    refine { h with
      schemaPairs := (events_silent rfl).trans h.schemaPairs
      met := ?_
      drained := hlt
      componentPairs := ?_ }
    · rw [events_silent rfl]
      exact h.met
    · rw [events_shown (f := Event.componentPair?) rfl, h.componentPairs, List.take_add_one, List.getElem?_map, hpending]
      rfl
  have hstable : Stable before after (Within before after (fuel before after) (index + 1)) :=
    stable_within
  have hrest : Keeps (Within before after (fuel before after) (index + 1))
      (compareTargets texts before after pending) := by
    apply (hstable.beforeSide.resolveSchema _).bind
    intro fromNode
    apply (hstable.afterSide.resolveSchema _).bind
    intro toNode
    split
    · exact keeps_compareResolved _ _ _ _ _
    · exact hstable.beforeSide.compareInvalid
  exact (hrest _ _ (within_fuel hexpanded)).mono fun _ _ _ h => h.1

theorem holds_compareComponents {n index : ℕ} {s : Comparison ι κ}
    (h : Explored before after index s events) (hn : fuel before after ≤ n + index) :
    Holds (fun _ s events => Drained before after s events)
      (compareComponents texts before after n index) s events := by
  induction n generalizing index s events with
  | zero =>
    have hlt := h.pending_le
    have hle := h.drained
    omega
  | succ n ih =>
    rw [compareComponents]
    cases hpending : s.pendingComponents[index]? with
    | none =>
      simp only [Holds, hpending]
      have hlength := List.getElem?_eq_none_iff.mp hpending
      rw [Drained, ← le_antisymm h.drained hlength]
      exact h
    | some pending =>
      simp only [Holds, hpending]
      apply (holds_compareComponent h hpending).bind
      intro _ s' events' h'
      exact ih h' (by omega)

variable (texts before after) in
/-- Without a limit the comparison ends, with nothing left in the queue. -/
theorem holds_comparison :
    Holds (fun _ s events => Drained before after s events) (comparison texts before after) .fresh
      [] := by
  have hstable : Stable before after (Within before after (fuel before after) 0) := stable_within
  have hresolved : ∀ left right place path direction,
      Keeps (Within before after (fuel before after) 0)
        (compareResolved texts before after (fuel before after) left right place path direction) :=
    keeps_compareResolved
  apply (hstable.beforeSide.enumerateOperations _ _ (within_fuel .fresh)).bind
  intro fromIndex s events h
  apply (hstable.afterSide.enumerateOperations s events h).bind
  intro toIndex s events h
  apply (keeps_each (fun _ _ => hstable.compareOperation hresolved fromIndex _) s events h).bind
  intro _ s events h
  apply (keeps_each (fun _ _ => hstable.beforeSide.compareRemoved toIndex _) s events h).bind
  intro _ s events h
  apply (holds_compareComponents h.1 (Nat.le_add_right _ _)).bind
  intro _ s events h
  apply (neutral_drained.settle s events h).bind
  intro _ s events h
  exact h

end Runs

end FerrumNexus.Publishing.SpecChanges
