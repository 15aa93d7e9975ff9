import FerrumNexus.Publishing.SpecShapeSums
import Mathlib.Data.Fintype.Basic

/-!
# A document is accepted exactly if its expansion is within the limits
-/
namespace FerrumNexus.Publishing.SpecShape

open OpenApi Platform Graphs CompletedSize

variable {ι : Type} {doc : Document ι} {contentType : ContentType} {root : ι}

/-- A document that is one scalar has no members. -/
theorem scalar_within {value : Value ι} (h : container? value = none) :
    (graph doc).Acyclic value ∧ ∃ tree, (graph doc).Unfolds value tree ∧
      expandedBytes contentType tree ≤ MAX_SPEC_EXPANDED_BYTES ∧ tree.height ≤ MAX_SPEC_DEPTH := by
  have hleaf : (graph doc).Unfolds value (.leaf value) := Graph.unfolds_leaf h
  refine ⟨Graph.acyclic_of_unfolds hleaf, _, hleaf, ?_, ?_⟩
  · simp [expandedBytes, Tree.cost]
  · simp

variable [DecidableEq ι]

/-! ## Whole walks -/

theorem turns_ends {walk last : Walk ι} {n : ℕ} (h : Sound doc contentType root walk)
    (hn : walk.left doc < n) (hturns : turns .unbounded doc contentType n walk = .ok last) :
    last.pending = [] := by
  induction n generalizing walk with
  | zero => omega
  | succ n ih =>
    unfold turns at hturns
    cases hturn : turn .unbounded doc contentType walk with
    | error refusal => simp [hturn, bind, Except.bind] at hturns
    | ok next =>
      simp only [hturn, bind, Except.bind] at hturns
      split at hturns
      · rename_i hempty
        exact Except.ok.inj hturns ▸ List.isEmpty_iff.mp hempty
      · rename_i hempty
        have hopen : walk.pending ≠ [] := by
          intro hnil
          have hsame : turn .unbounded doc contentType walk = .ok walk := by
            simp [turn, hnil]
          obtain rfl := Except.ok.inj (hsame.symm.trans hturn)
          exact hempty (List.isEmpty_iff.mpr hnil)
        have hless := left_turn h hopen hturn
        exact ih (h.turn hturn) (by omega) hturns

theorem turns_ok {walk : Walk ι} {tree : Tree (Option String) (Value ι)}
    (h : Sound doc contentType root walk) (hfits : Fits doc contentType root tree) (n : ℕ) :
    ∃ last, turns .unbounded doc contentType n walk = .ok last := by
  induction n generalizing walk with
  | zero => exact ⟨walk, rfl⟩
  | succ n ih =>
    obtain ⟨next, hnext⟩ := h.turn_ok hfits
    unfold turns
    simp only [hnext, bind, Except.bind]
    split
    · exact ⟨next, rfl⟩
    · exact ih (h.turn hnext)

/-- The walk is over after its last round. -/
theorem after_ends {last : Walk ι}
    (h : after .unbounded doc contentType root MAX_TURNS = .ok last) : last.pending = [] := by
  unfold after at h
  cases hstart : start .unbounded doc contentType root with
  | error refusal => simp [hstart, bind, Except.bind] at h
  | ok first =>
    simp only [hstart, bind, Except.bind] at h
    have hzero : (Walk.none : Walk ι).total ≤ MAX_SPEC_EXPANDED_BYTES := Nat.zero_le _
    have hleft := left_push hzero hstart
    have hnone : Walk.left doc (Walk.none : Walk ι) = MAX_SPEC_EXPANDED_BYTES := by
      simp [Walk.left, Walk.none]
    exact turns_ends (Sound.start hstart) (by rw [MAX_TURNS]; omega) h

/-- A document within the limits is walked to the end. -/
theorem after_ok {tree : Tree (Option String) (Value ι)} (hfits : Fits doc contentType root tree) :
    ∃ last, after .unbounded doc contentType root MAX_TURNS = .ok last := by
  obtain ⟨first, hfirst⟩ : ∃ first, start .unbounded doc contentType root = .ok first :=
    push_ok hfits kept_none .root rfl hfits.unfolds
  unfold after
  rw [hfirst]
  exact turns_ok (Sound.start hfirst) hfits MAX_TURNS

/-- A walk that has ended found a tree within the limits. -/
theorem fits_of_after {last : Walk ι} {n : ℕ}
    (h : after .unbounded doc contentType root n = .ok last) (hend : last.pending = []) :
    ∃ tree, Fits doc contentType root tree ∧ last.total = expandedBytes contentType tree := by
  have hsound := Sound.after h
  have hstack := hsound.stack
  rw [hend] at hstack
  obtain ⟨tree, htree, htotal, hheight⟩ := hstack
  exact ⟨tree, ⟨htree, htotal ▸ hsound.limit, hheight⟩, htotal⟩

/-- The verdict, for a document that is a container. -/
theorem after_ok_iff :
    (∃ last, after .unbounded doc contentType root MAX_TURNS = .ok last) ↔
      ∃ tree, Fits doc contentType root tree := by
  constructor
  · rintro ⟨last, hlast⟩
    obtain ⟨tree, hfits, -⟩ := fits_of_after hlast (after_ends hlast)
    exact ⟨tree, hfits⟩
  · rintro ⟨tree, hfits⟩
    exact after_ok hfits

/-- A document is accepted exactly if no cycle can be reached in it and the tree
it unfolds to is within the limits, which every acyclic document has; what is
remembered of a node is the height and the size of its tree, and the total at the
end is that of the root's; and no sum is ever rounded. -/
theorem shape_is_expansion [Finite ι] (arith : Arithmetic) (doc : ParsedDocument ι)
    (contentType : ContentType) :
    (∃ outcome, assertSpecShape arith doc.toDocument contentType = some outcome ∧
      (outcome = .ok () ↔ (graph doc.toDocument).Acyclic doc.root ∧
        ∃ tree, (graph doc.toDocument).Unfolds doc.root tree ∧
          expandedBytes contentType tree ≤ MAX_SPEC_EXPANDED_BYTES ∧
          tree.height ≤ MAX_SPEC_DEPTH)) ∧
    ((graph doc.toDocument).Acyclic doc.root →
      ∃! tree, (graph doc.toDocument).Unfolds doc.root tree) ∧
    (∀ root n walk, after arith doc.toDocument contentType root n = .ok walk →
      (∀ id height, walk.completedHeights id = some height →
        ∃ tree, (graph doc.toDocument).Unfolds (.node id) tree ∧ tree.height = height ∧
          walk.completedSizes id = some (sizeOf contentType tree) ∧
          ∀ depth ≥ 1, atDepth depth (sizeOf contentType tree) =
            tree.cost (memberPrice contentType) depth) ∧
      (walk.pending = [] → ∃ tree, (graph doc.toDocument).Unfolds (.node root) tree ∧
        walk.total = expandedBytes contentType tree)) ∧
    ∀ root n, after arith doc.toDocument contentType root n =
      after .unbounded doc.toDocument contentType root n := by
  refine ⟨?_, ?_, ?_, fun root n => after_eq arith n⟩
  · cases hroot : doc.root with
    | node root =>
      have hiff : (∃ last, after .unbounded doc.toDocument contentType root MAX_TURNS = .ok last) ↔
          ∃ tree, Fits doc.toDocument contentType root tree := after_ok_iff
      cases hafter : after .unbounded doc.toDocument contentType root MAX_TURNS with
      | error refusal =>
        refine ⟨.error refusal, by simp [assertSpecShape, hroot, after_eq, hafter], ?_⟩
        constructor
        · intro h
          cases h
        · rintro ⟨-, tree, htree, hbytes, hdepth⟩
          obtain ⟨last, hlast⟩ := hiff.mpr ⟨tree, htree, hbytes, hdepth⟩
          cases hafter.symm.trans hlast
      | ok last =>
        have hend := after_ends hafter
        refine ⟨.ok (), by simp [assertSpecShape, hroot, after_eq, hafter, hend], ?_⟩
        obtain ⟨tree, hfits⟩ := hiff.mp ⟨last, hafter⟩
        have hacyclic := Graph.acyclic_of_unfolds hfits.unfolds
        exact iff_of_true rfl ⟨hacyclic, tree, hfits.unfolds, hfits.bytes, hfits.depth⟩
    | _ =>
      refine ⟨.ok (), by simp [assertSpecShape, hroot], ?_⟩
      exact iff_of_true rfl (scalar_within rfl)
  · intro hacyclic
    obtain ⟨tree, htree⟩ := Graph.exists_unfolds_of_acyclic hacyclic
    exact ⟨tree, htree, fun other hother => hother.unique htree⟩
  · intro root n walk hwalk
    rw [after_eq] at hwalk
    constructor
    · intro id height hheight
      obtain ⟨tree, htree, hsame, hsize, -⟩ := (Sound.after hwalk).memo id height hheight
      refine ⟨tree, htree, hsame, hsize, fun depth hdepth => ?_⟩
      exact (Tree.cost_eq_sum (fun depth _ => atDepth_memberSize contentType depth)
        (fun _ hdepth size => atDepth_deeper hdepth size) tree hdepth).symm
    · intro hend
      obtain ⟨tree, hfits, htotal⟩ := fits_of_after hwalk hend
      exact ⟨tree, hfits.unfolds, htotal⟩

/-- A document that names one array twice: `a: &x [y]`, `b: *x`. -/
def twice : ParsedDocument (Fin 2) where
  nodes
    | 0 => .record ⟨[("a", .node 1), ("b", .node 1)], by decide⟩
    | 1 => .array [.string "y"]
  root := .node 0
  keys_fit := by decide
  values_fit := by decide

/-- What it unfolds to. -/
def twiceTree : Tree (Option String) (Value (Fin 2)) :=
  .node [(some "a", .node [(none, .leaf (.string "y"))]),
    (some "b", .node [(none, .leaf (.string "y"))])]

theorem twice_unfolds : (graph twice.toDocument).Unfolds twice.root twiceTree := ⟨2, rfl⟩

theorem shape_is_expansion_twice :
    expandedBytes .yaml twiceTree = 24 ∧
      assertSpecShape .unbounded twice.toDocument .yaml = some (.ok ()) := by
  obtain ⟨outcome, houtcome, hiff⟩ := (shape_is_expansion .unbounded twice .yaml).1
  have hbytes : expandedBytes .yaml twiceTree = 24 := by decide +kernel
  have hheight : twiceTree.height = 2 := by decide +kernel
  have haccepted : outcome = .ok () := by
    apply hiff.mpr
    refine ⟨Graph.acyclic_of_unfolds twice_unfolds, twiceTree, twice_unfolds, ?_, ?_⟩
    · rw [hbytes]
      decide
    · rw [hheight]
      decide
  exact ⟨hbytes, haccepted ▸ houtcome⟩

end FerrumNexus.Publishing.SpecShape
