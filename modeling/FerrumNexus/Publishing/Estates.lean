import FerrumNexus.Publishing.Disciplines

/-!
# The proxies of one API

What an operation on one API knows of the proxies the gateway holds. Others may
take a proxy away at any time and may make proxies of their own, so a deed
bounds what is live: nothing outside `may`. It also names the proxies the API
has a claim on: by its row, by the stored journal, by the journal in memory and
by the attempt of a rebuild. A deed is in order where every proxy it allows is
another's, excused, or named by the row or the attempt.
-/
namespace FerrumNexus.Publishing

open Saga Saga.Abstraction Platform

section Live

variable {J α : Type} {e e' : Edge J}

namespace Edge

/-- The ids under which the gateway holds a proxy. -/
def live (e : Edge J) : Set ℕ := { id | (e.proxies id).isSome }

def Keyed (e : Edge J) : Prop := ∀ id proxy, e.proxies id = some proxy → proxy.body.id = id

variable {etag id : ℕ} {f : Edge J → Except NexusError (α × Edge J)}

theorem mem_live : id ∈ e.live ↔ ∃ proxy, e.proxies id = some proxy :=
  Option.isSome_iff_exists

theorem notMem_live (h : e.proxies id = none) : id ∉ e.live := by
  simp [live, h]

theorem Keyed.putProxy (h : e.Keyed) {proxy : Option (Proxy J)}
    (hproxy : ∀ p, proxy = some p → p.body.id = id) : (putProxy id proxy e).Keyed := by
  intro i p hp
  by_cases hi : i = id
  · subst hi
    simp only [Edge.putProxy, Function.update_self] at hp
    exact hproxy p hp
  · simp only [Edge.putProxy, Function.update_of_ne hi] at hp
    exact h i p hp

theorem live_putProxy_some (id : ℕ) (proxy : Proxy J) :
    (putProxy id (some proxy) e).live ⊆ e.live ∪ {id} := by
  intro i hi
  by_cases hid : i = id
  · exact .inr hid
  · refine .inl ?_
    simpa [live, Edge.putProxy, hid] using hi

theorem live_putProxy_none (id : ℕ) : (putProxy id none e).live = e.live \ {id} := by
  ext i
  by_cases hid : i = id
  · subst hid
    simp [live, Edge.putProxy]
  · simp [live, Edge.putProxy, hid]

/-- `f` keeps proxies under their own ids and makes none but those in `ids`. -/
def Adds (ids : Set ℕ) (f : Edge J → Except NexusError (α × Edge J)) : Prop :=
  ∀ e a e', e.Keyed → f e = .ok (a, e') → e'.Keyed ∧ e'.live ⊆ e.live ∪ ids

theorem Adds.mono {ids ids' : Set ℕ} (h : Adds ids f) (hids : ids ⊆ ids') : Adds ids' f := by
  intro e a e' hkeyed hf
  obtain ⟨hkeyed', hlive⟩ := h e a e' hkeyed hf
  exact ⟨hkeyed', hlive.trans (Set.union_subset_union_right _ hids)⟩

theorem adds_createProxy (body : ProxyBody J) : Adds {body.id} (createProxy body) := by
  intro e a e' hkeyed hf
  cases hproxy : e.proxies body.id with
  | some _ => simp [createProxy, hproxy] at hf
  | none =>
    simp only [createProxy, hproxy, Except.ok.injEq, Prod.mk.injEq, true_and] at hf
    obtain rfl := hf
    refine ⟨hkeyed.putProxy ?_, live_putProxy_some _ _⟩
    rintro p ⟨⟩
    rfl

theorem adds_importSpec (importer : SubmittedSpec J → List (PluginConfig J))
    (submitted : SubmittedSpec J) :
    Adds {submitted.proxy.id} (importSpec importer submitted) := by
  intro e a e' hkeyed hf
  simp only [importSpec] at hf
  split_ifs at hf
  simp only [Except.ok.injEq, Prod.mk.injEq] at hf
  obtain ⟨-, rfl⟩ := hf
  refine ⟨Keyed.putProxy hkeyed ?_, live_putProxy_some _ _⟩
  rintro p ⟨⟩
  rfl

theorem adds_createConfig (config : PluginConfig J) : Adds ∅ (createConfig config) := by
  intro e a e' hkeyed hf
  simp only [createConfig] at hf
  split_ifs at hf
  simp only [Except.ok.injEq, Prod.mk.injEq] at hf
  obtain ⟨-, rfl⟩ := hf
  exact ⟨hkeyed, Set.subset_union_left⟩

/-- A proxy that is put back where one is live. -/
theorem live_putProxy_of_live {proxy old : Proxy J} (h : e.proxies id = some old) :
    (putProxy id (some proxy) e).live ⊆ e.live ∪ ∅ := by
  intro i hi
  rcases live_putProxy_some id proxy hi with hlive | rfl
  · exact .inl hlive
  · exact .inl (mem_live.mpr ⟨old, h⟩)

theorem adds_replaceProxy {body : ProxyBody J} {plugins : List ℕ} (hbody : body.id = id) :
    Adds ∅ (replaceProxy id body plugins) := by
  intro e a e' hkeyed hf
  cases hproxy : e.proxies id with
  | none => simp [replaceProxy, hproxy] at hf
  | some proxy =>
    simp only [replaceProxy, hproxy, Except.ok.injEq, Prod.mk.injEq, true_and] at hf
    obtain rfl := hf
    refine ⟨hkeyed.putProxy ?_, live_putProxy_of_live hproxy⟩
    rintro p ⟨⟩
    exact hbody

theorem adds_reimportSpec (importer : SubmittedSpec J → List (PluginConfig J)) (specId : ℕ)
    (submitted : SubmittedSpec J) : Adds ∅ (reimportSpec importer specId submitted) := by
  intro e a e' hkeyed hf
  cases hspec : e.specs.find? (·.id == specId) with
  | none => simp [reimportSpec, hspec] at hf
  | some spec =>
    cases hproxy : e.proxies spec.proxyId with
    | none => simp [reimportSpec, hspec, hproxy] at hf
    | some proxy =>
      simp only [reimportSpec, hspec, hproxy] at hf
      split_ifs at hf with hid
      simp only [Except.ok.injEq, Prod.mk.injEq, true_and] at hf
      obtain rfl := hf
      refine ⟨Keyed.putProxy hkeyed ?_, live_putProxy_of_live hproxy⟩
      rintro p ⟨⟩
      exact not_not.mp hid

theorem removeProxy_ok {a : Unit} (h : removeProxy id e = .ok (a, e')) :
    (e.Keyed → e'.Keyed) ∧ e'.live = e.live \ {id} := by
  cases hproxy : e.proxies id with
  | none => simp [removeProxy, hproxy] at h
  | some proxy =>
    simp only [removeProxy, hproxy, Except.ok.injEq, Prod.mk.injEq, true_and] at h
    obtain rfl := h
    exact ⟨fun hkeyed => Keyed.putProxy hkeyed nofun, live_putProxy_none id⟩

theorem adds_removeProxy (id : ℕ) : Adds ∅ (removeProxy (J := J) id) := by
  intro e a e' hkeyed hf
  obtain ⟨hkeyed', hlive⟩ := removeProxy_ok hf
  exact ⟨hkeyed' hkeyed, hlive ▸ Set.sdiff_subset.trans Set.subset_union_left⟩

theorem deleteProxy_ok {a : Unit} (h : deleteProxy id e = .ok (a, e')) :
    (e.Keyed → e'.Keyed) ∧ e'.live = e.live \ {id} := by
  cases hremove : removeProxy id e with
  | ok answer =>
    simp only [deleteProxy, hremove, Except.ok.injEq] at h
    exact removeProxy_ok (a := a) (h ▸ hremove)
  | error error =>
    simp only [deleteProxy, hremove, Except.ok.injEq, Prod.mk.injEq, true_and] at h
    obtain rfl := h
    refine ⟨fun hkeyed => hkeyed, (Set.sdiff_singleton_eq_self ?_).symm⟩
    cases hproxy : e.proxies id with
    | none => exact notMem_live hproxy
    | some proxy => simp [removeProxy, hproxy] at hremove

theorem adds_deleteProxy (id : ℕ) : Adds ∅ (deleteProxy (J := J) id) := by
  intro e a e' hkeyed hf
  obtain ⟨hkeyed', hlive⟩ := deleteProxy_ok hf
  exact ⟨hkeyed' hkeyed, hlive ▸ Set.sdiff_subset.trans Set.subset_union_left⟩

theorem adds_deleteConfig (id : ℕ) : Adds ∅ (deleteConfig (J := J) id) := by
  intro e a e' hkeyed hf
  simp only [deleteConfig] at hf
  split_ifs at hf
  · simp only [Except.ok.injEq, Prod.mk.injEq, true_and] at hf
    obtain rfl := hf
    refine ⟨fun i proxy hproxy => ?_, fun i hi => ?_⟩
    · obtain ⟨old, hold, rfl⟩ := Option.map_eq_some_iff.mp hproxy
      exact hkeyed i old hold
    · obtain ⟨proxy, hproxy⟩ := mem_live.mp hi
      obtain ⟨old, hold, -⟩ := Option.map_eq_some_iff.mp hproxy
      exact .inl (mem_live.mpr ⟨old, hold⟩)
  · simp only [Except.ok.injEq, Prod.mk.injEq, true_and] at hf
    obtain rfl := hf
    exact ⟨hkeyed, Set.subset_union_left⟩

theorem adds_touch : Adds ∅ fun e : Edge J => .ok ((), e.touch) := by
  rintro e a e' hkeyed ⟨⟩
  exact ⟨hkeyed, Set.subset_union_left⟩

theorem ifMatch_eq_ok {a : α} (h : ifMatch etag f e = .ok (a, e')) : f e = .ok (a, e') := by
  simp only [ifMatch] at h
  split_ifs at h
  exact h

theorem Adds.ifMatch {ids : Set ℕ} (h : Adds ids f) : Adds ids (ifMatch etag f) :=
  fun e a e' hkeyed hf => h e a e' hkeyed (ifMatch_eq_ok hf)

end Edge

end Live

section Deeds

variable {J : Type}

/-- The proxy the row names, if there is a row. -/
def PublishingState.rowProxy (s : PublishingState J) : Option (Option ℕ) :=
  s.api.map (·.ferrumProxyId)

structure Deed where
  may : Set ℕ
  row : Option (Option ℕ)
  recovery : Option ℕ
  memory : Option ℕ
  rebuild : Option ℕ

/-- What is fixed for one operation: whose the other proxies are, those that are
excused, the memory of the request, and whether it may hold a proxy of its own
beside a row that names none. -/
structure Estate where
  others : Set ℕ
  excused : Set ℕ
  others_excused : others ⊆ excused
  slot : ℕ
  builds : Bool
  beside : Option (Option ℕ)
  unnamed : ∀ id, beside ≠ some (some id)

/-- What others do at any time. -/
structure Elsewhere (others : Set ℕ) (s s' : PublishingState J) : Prop where
  live : s'.edge.live ⊆ s.edge.live ∪ others
  keyed : s.edge.Keyed → s'.edge.Keyed
  row : s'.rowProxy = s.rowProxy
  recovery : s'.recovery = s.recovery
  memory : s'.memory = s.memory
  rebuild : s'.rebuild = s.rebuild

theorem Elsewhere.refl {others : Set ℕ} (s : PublishingState J) : Elsewhere others s s :=
  ⟨Set.subset_union_left, id, rfl, rfl, rfl, rfl⟩

theorem Elsewhere.trans {others : Set ℕ} {a b c : PublishingState J} (h : Elsewhere others a b)
    (h' : Elsewhere others b c) : Elsewhere others a c where
  live := by
    intro i hi
    rcases h'.live hi with hi | hi
    · exact h.live hi
    · exact .inr hi
  keyed hkeyed := h'.keyed (h.keyed hkeyed)
  row := h'.row.trans h.row
  recovery := h'.recovery.trans h.recovery
  memory := h'.memory.trans h.memory
  rebuild := h'.rebuild.trans h.rebuild

/-- The store answers: its transactions fail only by their own checks. -/
def standing (c : Outcome) : Bool := c != .down

namespace Estate

variable (k : Estate)

/-- A deed that bounds the state and names what it holds. -/
structure Fits (s : PublishingState J) (d : Deed) : Prop where
  live : s.edge.live ⊆ d.may
  others : k.others ⊆ d.may
  keyed : s.edge.Keyed
  row : s.rowProxy = d.row
  recovery : s.recovery.map (·.proxy.body.id) = d.recovery
  memory : (s.memory k.slot).map (·.proxy.body.id) = d.memory
  rebuild : (if k.builds then (s.rebuild k.slot).map (·.proxyId) else none) = d.rebuild
  titled : ∀ id ∈ d.may,
    id ∈ k.excused ∨ d.row = some (some id) ∨ (d.rebuild = some id ∧ d.row = k.beside)
  journalled : ∀ id, d.recovery = some id → d.row = some (some id)

def abstraction : Abstraction (PublishingState J) Deed Outcome where
  fits := k.Fits
  rely := Elsewhere k.others
  fair := standing
  stable := by
    intro s s' d h hr
    refine ⟨?_, h.others, hr.keyed h.keyed, hr.row.trans h.row, ?_, ?_, ?_, h.titled, h.journalled⟩
    · exact hr.live.trans (Set.union_subset h.live h.others)
    · rw [hr.recovery]
      exact h.recovery
    · rw [hr.memory]
      exact h.memory
    · rw [hr.rebuild]
      exact h.rebuild

/-- Between operations nothing is claimed by an attempt. -/
def Settled (d : Deed) : Prop := ∀ id ∈ d.may, id ∈ k.excused ∨ d.row = some (some id)

end Estate

end Deeds

section Rules

variable {J α : Type} {k : Estate} {d : Deed} {Q : α → Deed → Prop} {E : NexusError → Deed → Prop}
  {s : PublishingState J} {f : Edge J → Except NexusError (α × Edge J)}

theorem Estate.Fits.withEdge (h : k.Fits s d) {e : Edge J} (hkeyed : e.Keyed)
    (hlive : e.live ⊆ d.may) : k.Fits { s with edge := e } d :=
  ⟨hlive, h.others, hkeyed, h.row, h.recovery, h.memory, h.rebuild, h.titled, h.journalled⟩

/-- Proxies that are seen to be gone stay gone, unless others make them. -/
theorem Estate.Fits.without (h : k.Fits s d) {id : ℕ} (hgone : id ∉ s.edge.live) :
    k.Fits s { d with may := (d.may \ {id}) ∪ k.others } := by
  refine ⟨fun i hi => .inl ⟨h.live hi, ?_⟩, Set.subset_union_right, h.keyed, h.row, h.recovery,
    h.memory, h.rebuild, ?_, h.journalled⟩
  · rintro rfl
    exact hgone hi
  · rintro i (hi | hi)
    · exact h.titled i hi.1
    · exact .inl (k.others_excused hi)

theorem holds_edgeRead {f : PublishingState J → α}
    (hQ : ∀ s, k.Fits s d → ∃ d', k.Fits s d' ∧ Q (f s) d') (hE : ∀ error, E error d) :
    k.abstraction.Does d (edgeRead f) Q E := by
  intro s hs
  refine wp_limit _ (wpe_edgeRead fun s₁ hr => ?_)
  have hs₁ := k.abstraction.stable _ _ _ hs hr
  exact ⟨⟨d, hs₁⟩, hQ s₁ hs₁, fun _ => ⟨d, hs₁, hE _⟩⟩

theorem holds_readEdge {f : Edge J → α}
    (hQ : ∀ s : PublishingState J, k.Fits s d → ∃ d', k.Fits s d' ∧ Q (f s.edge) d')
    (hE : ∀ error, E error d) : k.abstraction.Does d (readEdge f) Q E :=
  holds_edgeRead hQ hE

/-- A read of the store, which is not down. -/
theorem holds_storeRead {f : PublishingState J → α} (hQ : ∀ s, k.Fits s d → Q (f s) d) :
    k.abstraction.Does d (storeRead f) Q E := by
  refine does_atomic ?_
  intro s hs c hfair r s' hf
  cases c with
  | down => simp [Estate.abstraction, standing] at hfair
  | ok =>
    cases hf
    exact ⟨d, hs, hQ s hs⟩
  | refused st =>
    cases hf
    exact ⟨d, hs, hQ s hs⟩
  | lost st =>
    cases hf
    exact ⟨d, hs, hQ s hs⟩

/-- A transaction fails only by its own checks. -/
theorem holds_transaction {f : PublishingState J → Except NexusError (α × PublishingState J)}
    (hok : ∀ s, k.Fits s d → ∀ a s', f s = .ok (a, s') → ∃ d', k.Fits s' d' ∧ Q a d')
    (hE : ∀ s, k.Fits s d → ∀ error, f s = .error error → E error d) :
    k.abstraction.Does d (transaction f) Q E := by
  refine does_atomic ?_
  intro s hs c hfair r s' hstep
  split at hstep
  · simp [Estate.abstraction, standing] at hfair
  · rename_i a s₂ _ hfs
    cases hstep
    exact hok s hs a s' hfs
  · rename_i error _ hfs
    cases hstep
    exact ⟨d, hs, hE s hs error hfs⟩

theorem Estate.Fits.write (h : k.Fits s d) (hf : Edge.Adds d.may f) {a : α} {e' : Edge J}
    (hfe : f s.edge = .ok (a, e')) : k.Fits { s with edge := e' } d := by
  obtain ⟨hkeyed, hlive⟩ := hf s.edge a e' h.keyed hfe
  exact h.withEdge hkeyed (hlive.trans (Set.union_subset h.live subset_rfl))

/-- A write that makes no proxy the deed does not allow. -/
theorem holds_writeEdge (hf : Edge.Adds d.may f)
    (hQ : ∀ s : PublishingState J, k.Fits s d → ∀ a e', f s.edge = .ok (a, e') →
      ∃ d', k.Fits { s with edge := e' } d' ∧ Q a d')
    (hE : ∀ error, E error d) : k.abstraction.Does d (writeEdge f) Q E := by
  intro s hs
  refine wp_limit _ (wpe_writeEdge (fun s₁ hr a e' hfe => ?_) fun s₁ hr => ?_)
  all_goals have hs₁ : k.Fits s₁ d := k.abstraction.stable _ _ _ hs hr
  · have hwritten := hs₁.write hf hfe
    exact ⟨⟨d, hwritten⟩, hQ s₁ hs₁ a e' hfe, fun _ => ⟨d, hwritten, hE _⟩⟩
  · exact ⟨⟨d, hs₁⟩, fun _ => ⟨d, hs₁, hE _⟩⟩

/-- The same for a conditional write. -/
theorem holds_sendConditional {request : Request}
    {f : Edge J → Except NexusError (Unit × Edge J)} {Q : Unit → Deed → Prop}
    (hf : Edge.Adds d.may f)
    (hQ : ∀ s : PublishingState J, k.Fits s d → ∀ e', f s.edge = .ok ((), e') →
      ∃ d', k.Fits { s with edge := e' } d' ∧ Q () d')
    (hE : ∀ error, E error d) : k.abstraction.Does d (sendConditional request f) Q E := by
  have hlog : ∀ {s : PublishingState J} {d : Deed} (sent acked : List Request), k.Fits s d →
      k.Fits { s with sent := sent, acked := acked } d := fun _ _ h =>
    ⟨h.live, h.others, h.keyed, h.row, h.recovery, h.memory, h.rebuild, h.titled, h.journalled⟩
  intro s hs
  refine wp_limit _ (wpe_sendConditional (fun s₁ hr e' hfe => ?_) fun s₁ hr => ?_)
  all_goals have hs₁ : k.Fits s₁ d := k.abstraction.stable _ _ _ hs hr
  · have hwritten := hs₁.write hf hfe
    obtain ⟨d', hd', hq⟩ := hQ s₁ hs₁ e' hfe
    have hlogged := hlog (request :: s₁.sent) s₁.acked hwritten
    have hacked := hlog (request :: s₁.sent) (request :: s₁.acked) hwritten
    have hanswered := hlog (request :: s₁.sent) (request :: s₁.acked) hd'
    exact ⟨⟨⟨d, hacked⟩, d', hanswered, hq⟩, ⟨d, hlogged⟩,
      fun _ => ⟨d, hlogged, hE _⟩⟩
  · exact ⟨⟨d, hlog _ _ hs₁⟩, fun _ => ⟨d, hlog _ _ hs₁, hE _⟩⟩

theorem keeps_writeEdge {A : Deed → Prop} (hf : ∀ d, A d → Edge.Adds d.may f) :
    k.abstraction.Keeps A (writeEdge f) :=
  fun d hd => holds_writeEdge (hf d hd) (fun _ hs _ _ hfe => ⟨d, hs.write (hf d hd) hfe, hd⟩)
    fun _ => hd

theorem keeps_sendConditional {A : Deed → Prop} {request : Request}
    {f : Edge J → Except NexusError (Unit × Edge J)} (hf : ∀ d, A d → Edge.Adds d.may f) :
    k.abstraction.Keeps A (sendConditional request f) :=
  fun d hd => holds_sendConditional (hf d hd) (fun _ hs _ hfe => ⟨d, hs.write (hf d hd) hfe, hd⟩)
    fun _ => hd

theorem Edge.Adds.of_empty {ids : Set ℕ} (h : Edge.Adds ∅ f) : Edge.Adds ids f :=
  h.mono (Set.empty_subset ids)

theorem holds_newId {Q : ℕ → Deed → Prop} (hQ : ∀ id, Q id d) :
    k.abstraction.Does d (newId (J := J)) Q E := by
  refine does_atomic ?_
  intro s hs c _ r s' hstep
  cases hstep
  exact ⟨d, ⟨hs.live, hs.others, hs.keyed, hs.row, hs.recovery, hs.memory, hs.rebuild, hs.titled,
    hs.journalled⟩, hQ _⟩

theorem holds_readMemory {Q : ConversionRecovery J → Deed → Prop}
    (hQ : ∀ r, d.memory = some r.proxy.body.id → Q r d) :
    k.abstraction.Does d (readMemory k.slot) Q E := by
  refine does_atomic ?_
  intro s hs c _ r s' hf
  cases hmem : s.memory k.slot with
  | none => simp [hmem] at hf
  | some recovery =>
    simp only [hmem, Option.map_some, Option.some.injEq, Prod.mk.injEq] at hf
    obtain ⟨rfl, rfl⟩ := hf
    refine ⟨d, hs, hQ recovery ?_⟩
    rw [← hs.memory, hmem, Option.map_some]

theorem holds_remember {f : ConversionRecovery J → ConversionRecovery J} {Q : Unit → Deed → Prop}
    (hf : ∀ r, (f r).proxy = r.proxy) (hQ : Q () d) :
    k.abstraction.Does d (remember k.slot f) Q E := by
  refine does_atomic ?_
  intro s hs c _ r s' hstep
  cases hstep
  refine ⟨d, ⟨hs.live, hs.others, hs.keyed, hs.row, hs.recovery, ?_, hs.rebuild, hs.titled,
    hs.journalled⟩, hQ⟩
  have hsame : ∀ r, (f r).proxy.body.id = r.proxy.body.id := fun r => by rw [hf]
  simp only [editMemory, Function.update_self, Option.map_map, Function.comp_def, hsame]
  exact hs.memory

theorem holds_openJournal {recovery : ConversionRecovery J} {Q : Unit → Deed → Prop}
    (hQ : Q () { d with memory := some recovery.proxy.body.id }) :
    k.abstraction.Does d (openJournal k.slot recovery) Q E := by
  refine does_atomic ?_
  intro s hs c _ r s' hstep
  cases hstep
  refine ⟨{ d with memory := some recovery.proxy.body.id }, ⟨hs.live, hs.others, hs.keyed, hs.row,
    hs.recovery, ?_, hs.rebuild, hs.titled, hs.journalled⟩, hQ⟩
  simp only [Function.update_self, Option.map_some]

theorem holds_readRebuild (hbuilds : k.builds = true) {Q : RebuildAttempt J → Deed → Prop}
    (hQ : ∀ a, d.rebuild = some a.proxyId → Q a d) :
    k.abstraction.Does d (readRebuild k.slot) Q E := by
  refine does_atomic ?_
  intro s hs c _ r s' hf
  cases hmem : s.rebuild k.slot with
  | none => simp [hmem] at hf
  | some a =>
    simp only [hmem, Option.map_some, Option.some.injEq, Prod.mk.injEq] at hf
    obtain ⟨rfl, rfl⟩ := hf
    refine ⟨d, hs, hQ a ?_⟩
    rw [← hs.rebuild, if_pos hbuilds, hmem, Option.map_some]

/-- A note on the attempt in progress that keeps its proxy. -/
theorem holds_noteRebuild {f : RebuildAttempt J → RebuildAttempt J} {Q : Unit → Deed → Prop}
    (hf : ∀ a, d.rebuild = some a.proxyId → (f a).proxyId = a.proxyId)
    (hbuilds : k.builds = true) (hQ : Q () d) :
    k.abstraction.Does d (noteRebuild k.slot f) Q E := by
  refine does_atomic ?_
  intro s hs c _ r s' hstep
  cases hstep
  refine ⟨d, ⟨hs.live, hs.others, hs.keyed, hs.row, hs.recovery, hs.memory, ?_, hs.titled,
    hs.journalled⟩, hQ⟩
  have hrebuild := hs.rebuild
  rw [if_pos hbuilds] at hrebuild ⊢
  simp only [Function.update_self, ← hrebuild, Option.map_map]
  cases ha : s.rebuild k.slot with
  | none => rfl
  | some a =>
    rw [ha, Option.map_some] at hrebuild
    simp only [Option.map_some, Function.comp_apply, hf a hrebuild.symm]

/-- A new attempt may make its proxy, once no other attempt is counted on. -/
theorem holds_openRebuild {attempt : RebuildAttempt J} {Q : Unit → Deed → Prop}
    (hbuilds : k.builds = true) (hsettled : k.Settled d) (hrow : d.row = k.beside)
    (hQ : Q () { d with
      may := insert attempt.proxyId d.may
      rebuild := some attempt.proxyId }) :
    k.abstraction.Does d (openRebuild k.slot attempt) Q E := by
  refine does_atomic ?_
  intro s hs c _ r s' hstep
  cases hstep
  refine ⟨{ d with may := insert attempt.proxyId d.may, rebuild := some attempt.proxyId },
    ⟨hs.live.trans (Set.subset_insert _ _), hs.others.trans (Set.subset_insert _ _),
    hs.keyed, hs.row, hs.recovery, hs.memory, ?_, ?_, hs.journalled⟩, hQ⟩
  · simp only [if_pos hbuilds, Function.update_self, Option.map_some]
  · rintro id (rfl | hid)
    · exact .inr (.inr ⟨rfl, hrow⟩)
    · exact (hsettled id hid).imp_right .inl

/-- The row as it was read is the row. -/
theorem holds_loadApi {Q : ApiRecord J → Deed → Prop}
    (hQ : ∀ api, d.row = some api.ferrumProxyId → Q api d) (hE : ∀ error, E error d) :
    k.abstraction.Does d (loadApi (J := J)) Q E := by
  refine does_bind (holds_storeRead fun s hs => ?_)
  have hrow := hs.row
  cases hapi : s.api with
  | none => exact does_throw (hE _)
  | some api =>
    refine does_pure (hQ api ?_)
    rw [← hrow, PublishingState.rowProxy, hapi, Option.map_some]

end Rules

section Disciplines

variable {J : Type} {k : Estate} {A : Deed → Prop}

/-- The proxies of the gateway are kept under their own ids, so what is written
back is about the same proxy. -/
theorem keeps_mutateProxyLocked (proxyId : ℕ) {change : Proxy J → Option (ProxyBody J × List ℕ)}
    (hchange : ∀ proxy body plugins, change proxy = some (body, plugins) →
      body.id = proxy.body.id) :
    k.abstraction.Keeps A (mutateProxyLocked proxyId change) := by
  intro d hd
  refine does_bind (holds_readEdge (fun s hs => ⟨d, hs, ?_⟩) fun _ => hd)
  cases hfound : s.edge.proxies proxyId with
  | none => exact does_throw hd
  | some proxy =>
    cases hnext : change proxy with
    | none =>
      simp only [hnext]
      exact does_pure hd
    | some next =>
      obtain ⟨body, plugins⟩ := next
      simp only [hnext]
      have hid : body.id = proxyId :=
        (hchange proxy body plugins hnext).trans (hs.keyed proxyId proxy hfound)
      exact keeps_writeEdge (fun _ _ => (Edge.adds_replaceProxy hid).of_empty) d hd

theorem deeds_newId : k.abstraction.Keeps A (newId (J := J)) :=
  fun _ hd => holds_newId fun _ => hd

/-- Whatever is said of a deed alone is a discipline. -/
def Estate.discipline (k : Estate) (A : Deed → Prop) : Discipline J where
  Good p := k.abstraction.Keeps A p
  reads h := keeps_reads h
  bind hp hg := hp.bind hg
  newId := deeds_newId
  createConfig config := keeps_writeEdge fun _ _ => (Edge.adds_createConfig config).of_empty
  mutateProxy proxyId _ hchange := keeps_mutateProxyLocked proxyId hchange

theorem keeps_sendMutation {docs : Documents J} (call : ℕ) (kind : MutationKind) (id : ℕ)
    (original : Snapshot J) (document : Option (SubmittedSpec J)) :
    k.abstraction.Keeps A (sendMutation docs call kind id original document) := by
  cases kind with
  | remove => exact keeps_sendConditional fun _ _ => (Edge.adds_removeProxy id).ifMatch.of_empty
  | replace =>
    cases document with
    | none => exact keeps_reads (reads_pure ())
    | some submitted =>
      exact keeps_sendConditional fun _ _ => (Edge.adds_reimportSpec _ _ _).ifMatch.of_empty

theorem keeps_runWrites {writes : List (Edge J → Except NexusError (Unit × Edge J))}
    (hwrites : ∀ write ∈ writes, Edge.Adds ∅ write) :
    k.abstraction.Keeps A (runWrites writes) := by
  induction writes with
  | nil => exact keeps_reads (reads_pure ())
  | cons write writes ih =>
    obtain ⟨hwrite, hrest⟩ := List.forall_mem_cons.mp hwrites
    exact (keeps_writeEdge fun _ _ => hwrite.of_empty).bind fun _ => ih hrest

theorem keeps_tryWrites {writes : List (Edge J → Except NexusError (Unit × Edge J))}
    (hwrites : ∀ write ∈ writes, Edge.Adds ∅ write) :
    k.abstraction.Keeps A (tryWrites writes) := by
  induction writes with
  | nil => exact keeps_reads (reads_pure ())
  | cons write writes ih =>
    obtain ⟨hwrite, hrest⟩ := List.forall_mem_cons.mp hwrites
    exact (keeps_bestEffort (keeps_writeEdge fun _ _ => hwrite.of_empty)).bind fun _ => ih hrest

theorem keeps_sweepConfigs (ids : List ℕ) :
    k.abstraction.Keeps A (sweepConfigs (J := J) ids) := by
  refine keeps_tryWrites fun write hwrite => ?_
  obtain ⟨id, -, rfl⟩ := List.mem_map.mp hwrite
  exact Edge.adds_deleteConfig id

end Disciplines

end FerrumNexus.Publishing
