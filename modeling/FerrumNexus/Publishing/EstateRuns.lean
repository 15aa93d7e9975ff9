import FerrumNexus.Publishing.EstateRebuilds
import FerrumNexus.Publishing.JournalRuns

/-!
# Runs of one API and the proxies they leave

A published API is updated, restored and removed by operations that follow one
another, each to its end or to a crash, while the gateway may lose proxies and
others may make their own at any time. The store answers throughout. A proxy is
abandoned where a plain rebuild crashed between making it and naming it in the
row: then only the log of the run knows of it. Every other proxy of the API is
gone once its row is.
-/
namespace FerrumNexus.Publishing

open Saga Platform

section Runs

variable {J : Type} [DecidableEq J]

/-- A PATCH whose gateway writes beside the conversion make no proxy. -/
structure ProxyPatch (J : Type) extends EnforcementPatch J where
  writes_add : ∀ write ∈ writes, Edge.Adds ∅ write
  undo_add : ∀ write ∈ undo, Edge.Adds ∅ write

inductive ProxyOp (J : Type)
  | update (slot : ℕ) (initial : Option ℕ) (patch : ProxyPatch J)
  | restore (slot : ℕ)
  | remove (initial : Option ℕ)

def ProxyOp.service (docs : Documents J) (policies : Policies J) :
    ProxyOp J → PublishingService J Unit
  | update slot initial patch => updateEnforcement docs slot policies initial patch.toEnforcementPatch
  | restore slot => restoreGateway docs policies slot
  | remove initial => Publishing.remove initial

def ProxyOp.program (docs : Documents J) (policies : Policies J) (o : ProxyOp J) :
    Program (PublishingState J) Outcome Unit :=
  ((o.service docs policies).limit standing).toProgram

/-- An API before its publish: `others` are the proxies that are not its own. -/
structure Unpublished (others : Set ℕ) (s : PublishingState J) : Prop where
  row : s.api = none
  recovery : s.recovery = none
  live : s.edge.live ⊆ others
  keyed : s.edge.Keyed

/-- A state in which a publish has just returned. -/
def Published (docs : Documents J) (policies : Policies J) (others : Set ℕ)
    (s : PublishingState J) : Prop :=
  ∃ slot shape document s₀, Unpublished others s₀ ∧
    ((publish docs policies slot shape document).limit standing).run.Ends (Elsewhere others) s₀
      (.ok ()) s

abbrev ProxyReachable (docs : Documents J) (policies : Policies J) (others : Set ℕ) :
    PublishingState J → Option (ProxyOp J × Program (PublishingState J) Outcome Unit) →
      List (ProxyOp J × PublishingState J) → Prop :=
  Watched.Reachable (ProxyOp.program docs policies) (Published docs policies others)
    (fun _ _ => True) (Elsewhere others)

/-- The proxies of plain rebuilds that crashed while the row named none. -/
def Abandoned (log : List (ProxyOp J × PublishingState J)) : Set ℕ :=
  { id | ∃ slot s, (ProxyOp.restore slot, s) ∈ log ∧ id ∈ s.edge.live ∧
    (s.rebuild slot).map (·.proxyId) = some id ∧ s.rowProxy = some none }

/-- What one operation holds. Only a restore builds. -/
def ProxyOp.estate (others : Set ℕ) (log : List (ProxyOp J × PublishingState J)) :
    ProxyOp J → Estate
  | update slot _ _ =>
    ⟨others, others ∪ Abandoned log, Set.subset_union_left, slot, false, none, nofun⟩
  | restore slot =>
    ⟨others, others ∪ Abandoned log, Set.subset_union_left, slot, true, some none, nofun⟩
  | remove _ => ⟨others, others ∪ Abandoned log, Set.subset_union_left, 0, false, none, nofun⟩

variable {others : Set ℕ} {log : List (ProxyOp J × PublishingState J)} {s : PublishingState J}

/-- Between operations the row names every proxy that is not excused. -/
structure AtRest (others : Set ℕ) (log : List (ProxyOp J × PublishingState J))
    (s : PublishingState J) : Prop where
  keyed : s.edge.Keyed
  named : ∀ id ∈ s.edge.live, id ∈ others ∪ Abandoned log ∨ s.rowProxy = some (some id)
  journalled : ∀ r, s.recovery = some r → s.rowProxy = some (some r.proxy.body.id)

omit [DecidableEq J] in
theorem AtRest.elsewhere {s' : PublishingState J} (h : AtRest others log s)
    (hr : Elsewhere others s s') : AtRest others log s' := by
  refine ⟨hr.keyed h.keyed, ?_, ?_⟩
  · intro id hid
    rw [hr.row]
    rcases hr.live hid with hlive | hothers
    · exact h.named id hlive
    · exact .inl (.inl hothers)
  · intro r hrecovery
    rw [hr.row]
    exact h.journalled r (hr.recovery.symm.trans hrecovery)

omit [DecidableEq J] in
/-- The deed an operation starts with. -/
theorem AtRest.fits (h : AtRest others log s) (o : ProxyOp J) :
    ∃ d, (o.estate others log).Fits s d ∧ (o.estate others log).Settled d := by
  have hsame : (o.estate others log).others = others ∧
      (o.estate others log).excused = others ∪ Abandoned log := by
    cases o with
    | update slot initial patch => exact ⟨rfl, rfl⟩
    | restore slot => exact ⟨rfl, rfl⟩
    | remove initial => exact ⟨rfl, rfl⟩
  obtain ⟨hothers, hexcused⟩ := hsame
  have hnamed : ∀ id ∈ s.edge.live ∪ others,
      id ∈ (o.estate others log).excused ∨ s.rowProxy = some (some id) := by
    rw [hexcused]
    rintro id (hid | hid)
    · exact h.named id hid
    · exact .inl (.inl hid)
  refine ⟨⟨s.edge.live ∪ others, s.rowProxy, _, _, _⟩, ⟨Set.subset_union_left, ?_, h.keyed, rfl, rfl,
    rfl, rfl, fun id hid => (hnamed id hid).imp_right .inl, ?_⟩, hnamed⟩
  · rw [hothers]
    exact Set.subset_union_right
  · intro id hid
    obtain ⟨r, hr, rfl⟩ := Option.map_eq_some_iff.mp hid
    exact h.journalled r hr

omit [DecidableEq J] in
theorem Estate.Fits.atRest {k : Estate} {d : Deed} (h : k.Fits s d)
    (hsettled : ∀ id ∈ s.edge.live, id ∈ others ∪ Abandoned log ∨ d.row = some (some id)) :
    AtRest others log s := by
  refine ⟨h.keyed, ?_, ?_⟩
  · rw [h.row]
    exact hsettled
  · intro r hr
    rw [h.row]
    refine h.journalled _ ?_
    rw [← h.recovery, hr, Option.map_some]

omit [DecidableEq J] in
theorem abandoned_mono (o : ProxyOp J) : Abandoned log ⊆ Abandoned ((o, s) :: log) := by
  rintro id ⟨slot, s₁, hmem, h⟩
  exact ⟨slot, s₁, List.mem_cons_of_mem _ hmem, h⟩

omit [DecidableEq J] in
/-- After a crash, the proxy of an attempt beside a row that names none is
abandoned. -/
theorem atRest_crash {o : ProxyOp J} {d : Deed} (h : (o.estate others log).Fits s d) :
    AtRest others ((o, s) :: log) s := by
  have hmono : others ∪ Abandoned log ⊆ others ∪ Abandoned ((o, s) :: log) :=
    Set.union_subset_union_right _ (abandoned_mono o)
  refine h.atRest fun id hid => ?_
  have htitled := h.titled id (h.live hid)
  have hrebuild := h.rebuild
  cases o with
  | update slot initial patch =>
    rcases htitled with hexcused | hrow | ⟨hattempt, -⟩
    · exact .inl (hmono hexcused)
    · exact .inr hrow
    · rw [← hrebuild] at hattempt
      cases hattempt
  | remove initial =>
    rcases htitled with hexcused | hrow | ⟨hattempt, -⟩
    · exact .inl (hmono hexcused)
    · exact .inr hrow
    · rw [← hrebuild] at hattempt
      cases hattempt
  | restore slot =>
    rcases htitled with hexcused | hrow | ⟨hattempt, hrow⟩
    · exact .inl (hmono hexcused)
    · exact .inr hrow
    · refine .inl (.inr ⟨slot, s, List.mem_cons_self, hid, ?_, h.row.trans hrow⟩)
      rw [← hattempt, ← hrebuild]
      rfl

omit [DecidableEq J] in
theorem atRest_published {docs : Documents J} {policies : Policies J}
    (h : Published docs policies others s) : AtRest others [] s := by
  obtain ⟨slot, shape, document, s₀, hs₀, hends⟩ := h
  let k : Estate := ⟨others, others, subset_rfl, slot, true, none, fun _ => (Option.some_ne_none _).symm⟩
  have hrow : s₀.rowProxy = none := by rw [PublishingState.rowProxy, hs₀.row, Option.map_none]
  let d₀ : Deed := ⟨others, none, none, (s₀.memory slot).map (·.proxy.body.id),
    (s₀.rebuild slot).map (·.proxyId)⟩
  have hfits : k.Fits s₀ d₀ := by
    refine ⟨hs₀.live, subset_rfl, hs₀.keyed, hrow, ?_, rfl, rfl, fun _ => .inl, fun id hid => ?_⟩
    · rw [hs₀.recovery, Option.map_none]
    · cases hid
  have hdoes : k.abstraction.Does d₀ (publish docs policies slot shape document)
      (fun _ => k.Settled) fun _ _ => True :=
    settled_publish rfl rfl shape document rfl fun _ => .inl
  have hpublish := hdoes s₀ hfits
  obtain ⟨d, hd, hsettled⟩ := wp_ends hpublish hends
  refine hd.atRest fun id hid => ?_
  exact (hsettled id (hd.live hid)).imp_left .inl

/-- Every operation ends at rest. -/
theorem does_service (docs : Documents J) (policies : Policies J) (o : ProxyOp J) {d : Deed}
    (hd : (o.estate others log).Settled d) :
    (o.estate others log).abstraction.Does d (o.service docs policies)
      (fun _ => (o.estate others log).Settled) fun _ => (o.estate others log).Settled := by
  cases o with
  | update slot initial patch =>
    exact settled_updateEnforcement initial patch.toEnforcementPatch patch.writes_add patch.undo_add hd
  | restore slot => exact settled_restoreGateway rfl rfl hd
  | remove initial =>
    exact (removed_remove initial hd).mono (fun _ _ h => h.2) fun _ _ h => h

omit [DecidableEq J] in
/-- Without a row nothing is held. -/
theorem live_of_removed {o : ProxyOp J} {d : Deed} (h : (o.estate others log).Fits s d)
    (hapi : s.api = none) : s.edge.live ⊆ others ∪ Abandoned log := by
  have hrow : d.row = none := by rw [← h.row, PublishingState.rowProxy, hapi, Option.map_none]
  have hrebuild := h.rebuild
  intro id hid
  rcases h.titled id (h.live hid) with hexcused | hnamed | ⟨hattempt, hbeside⟩
  · cases o with
    | update slot initial patch => exact hexcused
    | restore slot => exact hexcused
    | remove initial => exact hexcused
  · rw [hrow] at hnamed
    cases hnamed
  · cases o with
    | update slot initial patch =>
      rw [← hrebuild] at hattempt
      cases hattempt
    | restore slot =>
      rw [hrow] at hbeside
      cases hbeside
    | remove initial =>
      rw [← hrebuild] at hattempt
      cases hattempt

/-- A deleted API leaves no proxy: wherever its row is gone, and whenever its
removal returns. -/
theorem removed_api_leaves_no_proxy (docs : Documents J) (policies : Policies J)
    {p : Option (ProxyOp J × Program (PublishingState J) Outcome Unit)}
    (h : ProxyReachable docs policies others s p log) :
    (s.api = none → s.edge.live ⊆ others ∪ Abandoned log) ∧
      (p = none → ∀ initial, wpe (Elsewhere others) (fun _ _ => True)
        ((remove initial).limit standing)
        (fun _ s' => s'.api = none ∧ s'.edge.live ⊆ others ∪ Abandoned log) (fun _ _ => True) s) := by
  let K : List (ProxyOp J × PublishingState J) → ProxyOp J → PublishingState J → Prop :=
    fun log o s => ∃ d, (o.estate others log).Fits s d
  have hothers : ∀ (o : ProxyOp J) log, (o.estate others log).abstraction.rely =
      (Elsewhere others : PublishingState J → PublishingState J → Prop) := by
    intro o log
    cases o with
    | update slot initial patch => rfl
    | restore slot => rfl
    | remove initial => rfl
  have hend : ∀ log (o : ProxyOp J) s d, (o.estate others log).Fits s d →
      (o.estate others log).Settled d → AtRest others log s := by
    intro log o s d hd hsettled
    refine hd.atRest fun id hid => ?_
    have hnamed := hsettled id (hd.live hid)
    cases o with
    | update slot initial patch => exact hnamed
    | restore slot => exact hnamed
    | remove initial => exact hnamed
  have hop : ∀ log (o : ProxyOp J) s, AtRest others log s → True →
      wp (Elsewhere others) (fun _ s' => K log o s') (o.program docs policies)
        (fun _ s' => AtRest others log s') s := by
    intro log o s hs _
    obtain ⟨d, hd, hsettled⟩ := hs.fits o
    have hdoes := does_service docs policies o hsettled s hd
    rw [hothers] at hdoes
    refine wp_toProgram (wpe_mono hdoes ?_ ?_)
    · exact fun _ s' ⟨d', hd', hsettled'⟩ => hend log o s' d' hd' hsettled'
    · exact fun _ s' ⟨d', hd', hsettled'⟩ => hend log o s' d' hd' hsettled'
  have hinv := Watched.invariant (I := AtRest others) (K := K) Elsewhere.refl
    (fun _ _ _ hab hbc => hab.trans hbc) (fun _ hs => atRest_published hs)
    (fun _ _ _ hs hr => hs.elsewhere hr)
    (fun log o s s' ⟨d, hd⟩ hr => ⟨d, (o.estate others log).abstraction.stable s s' d hd
      (hothers o log ▸ hr)⟩)
    (fun log o s hs _ => by
      obtain ⟨d, hd, -⟩ := hs.fits o
      exact ⟨d, hd⟩)
    (fun log o s ⟨d, hd⟩ => atRest_crash hd) hop h
  refine ⟨fun hapi => ?_, fun hnone initial => ?_⟩
  · cases p with
    | none =>
      obtain ⟨d, hd, -⟩ := (hinv.1 rfl).fits (.remove none)
      exact live_of_removed hd hapi
    | some q =>
      obtain ⟨d, hd⟩ := (hinv.2 q.1 q.2 rfl).1
      exact live_of_removed hd hapi
  · obtain ⟨d, hd, hsettled⟩ := (hinv.1 hnone).fits (.remove initial)
    have hremove := removed_remove (J := J) initial hsettled s hd
    refine wp_guarantee hremove (fun _ _ _ => trivial) ?_
    rintro (error | _) s' hs'
    · trivial
    · obtain ⟨d', hd', hrow, -⟩ := hs'
      have hapi : s'.api = none := by
        have hsame := hd'.row.trans hrow
        simpa [PublishingState.rowProxy] using hsame
      exact ⟨hapi, live_of_removed hd' hapi⟩

end Runs

section Worlds

/-- Before the publish. -/
def unpublishedWorld : PublishingState ℕ :=
  { missingWorld with api := none, currentSpec := none }

def ordersShape : ApiShape ℕ := ⟨"orders", .docsOnly, none, none, none, 0⟩

/-- The publish of the API, on choices that all go well. -/
def publishOrders : Option (Except NexusError Unit × PublishingState ℕ) :=
  ((publish plainDocuments plainPolicies 0 ordersShape 7).limit standing).run.exec
    (List.replicate 13 .ok) unpublishedWorld

def removeProgram (initial : Option ℕ) :
    Program (PublishingState ℕ) Outcome (Except NexusError Unit) :=
  ((remove initial).limit standing).run

/-- The gateway forgets its proxies. -/
def lose (s : PublishingState ℕ) : PublishingState ℕ :=
  { s with edge := { s.edge with proxies := fun _ => none } }

theorem elsewhere_lose (s : PublishingState ℕ) : Elsewhere ∅ s (lose s) := by
  refine ⟨?_, nofun, rfl, rfl, rfl, rfl⟩
  rintro id hid
  cases hid

theorem reachable_published {s : PublishingState ℕ} (h : publishOrders = some (.ok (), s)) :
    ProxyReachable plainDocuments plainPolicies ∅ s none [] := by
  have hempty : Unpublished ∅ unpublishedWorld := by
    refine ⟨rfl, rfl, ?_, nofun⟩
    rintro id hid
    cases hid
  exact .init ⟨0, ordersShape, 7, unpublishedWorld, hempty, Program.ends_of_exec Elsewhere.refl h⟩

/-- The restore of the lost proxy. -/
def restoreOrders : Program (PublishingState ℕ) Outcome Unit :=
  ProxyOp.program plainDocuments plainPolicies (.restore 0)

/-- A published API whose proxy is lost, and the restore some steps on. -/
theorem exists_restoring (steps : ℕ) {P : PublishingState ℕ → Bool}
    (h : publishOrders.any (fun x => x.1.toBool &&
      (restoreOrders.advance (List.replicate steps .ok) (lose x.2)).any fun y => P y.2) = true) :
    ∃ s q, ProxyReachable plainDocuments plainPolicies ∅ s (some (.restore 0, q)) [] ∧
      P s = true := by
  obtain ⟨⟨r, s⟩, hpublish, hruns⟩ := (Option.any_eq_true _ _).mp h
  obtain ⟨hreturned, hrestore⟩ := Bool.and_eq_true_iff.mp hruns
  cases r with
  | error error => cases hreturned
  | ok _ =>
    obtain ⟨⟨q, s₁⟩, hadvance, hP⟩ := (Option.any_eq_true _ _).mp hrestore
    have hlost := Watched.Reachable.others (reachable_published hpublish) (elsewhere_lose s)
    have hstarted : ProxyReachable plainDocuments plainPolicies ∅ (lose s)
        (some (.restore 0, restoreOrders)) [] := .start (.restore 0) hlost trivial
    exact ⟨s₁, q, Watched.reachable_advance hstarted hadvance, hP⟩

/-- Whether the removal after that returns. -/
def removalReturns (s : PublishingState ℕ) : Bool :=
  s.rowProxy == some (some 4) &&
    ((removeProgram (some 4)).exec (List.replicate 8 .ok) s).any fun x => x.1.toBool

/-- The gateway loses the proxy of a published API, its restore makes another and
crashes once the row names it, and the removal takes that one away. -/
theorem removed_api_leaves_no_proxy_restored :
    ∃ s s' log, ProxyReachable plainDocuments plainPolicies ∅ s none log ∧ log ≠ [] ∧
      (removeProgram (some 4)).exec (List.replicate 8 .ok) s = some (.ok (), s') ∧
      s'.api = none ∧ s'.edge.live = ∅ := by
  obtain ⟨s, _, hrestoring, hremove⟩ := @exists_restoring 24 removalReturns (by decide +kernel)
  have hcrashed := Watched.Reachable.crash hrestoring
  simp only [removalReturns, Bool.and_eq_true, beq_iff_eq] at hremove
  obtain ⟨hrow, hremove⟩ := hremove
  obtain ⟨⟨r', s'⟩, hexec, hok⟩ := (Option.any_eq_true _ _).mp hremove
  cases r' with
  | error error => cases hok
  | ok _ =>
    have hleaves := removed_api_leaves_no_proxy _ _ hcrashed
    obtain ⟨hapi, hlive⟩ := wp_exec Elsewhere.refl (hleaves.2 rfl (some 4)) hexec
    refine ⟨s, s', _, hcrashed, nofun, hexec, hapi, ?_⟩
    -- the row names the proxy of the restore that crashed
    have hnone : Abandoned [(ProxyOp.restore 0, s)] = ∅ := by
      ext id
      simp [Abandoned, hrow]
    rw [hnone, Set.union_empty] at hlive
    exact Set.subset_empty_iff.mp hlive

/-- Whether the removal after that crash returns and leaves the proxy. -/
def removalLeaves (s : PublishingState ℕ) : Bool :=
  ((removeProgram none).exec (List.replicate 5 .ok) s).any fun x =>
    x.1.toBool && x.2.api.isNone && (x.2.edge.proxies 4).isSome

/-- The gateway loses the proxy, its restore crashes between making another and
naming it in the row, and the removal of the API returns. -/
theorem removal_leaves_abandoned_proxy :
    ∃ s s' log, ProxyReachable plainDocuments plainPolicies ∅ s none log ∧
      (removeProgram none).exec (List.replicate 5 .ok) s = some (.ok (), s') ∧
      s'.api = none ∧ 4 ∈ s'.edge.live := by
  obtain ⟨s, _, hrestoring, hremove⟩ := @exists_restoring 17 removalLeaves (by decide +kernel)
  obtain ⟨⟨r', s'⟩, hexec, hleft⟩ := (Option.any_eq_true _ _).mp hremove
  simp only [Bool.and_eq_true, Option.isNone_iff_eq_none] at hleft
  obtain ⟨⟨hok, hapi⟩, hlive⟩ := hleft
  cases r' with
  | error error => cases hok
  | ok _ => exact ⟨s, s', _, .crash hrestoring, hexec, hapi, hlive⟩

end Worlds

end FerrumNexus.Publishing
