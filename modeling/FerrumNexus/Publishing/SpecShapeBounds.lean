import FerrumNexus.Publishing.SpecShapeRuns

/-!
# The accounting is that of the full expansion

A document that unfolds within the limits passes every check the walk makes; the
walk ends, since each round uses up part of the limit or of the stack; and no sum
it takes is large enough to be rounded.
-/
namespace FerrumNexus.Publishing.SpecShape

open OpenApi Platform Graphs CompletedSize

variable {ι : Type} {contentType : ContentType} {root : ι}

/-! ## Nothing within the limits is refused -/

section Room

variable {doc : Document ι}

theorem height_le_heights {u : Option String × Tree (Option String) (Value ι)}
    {unfolded : List (Option String × Tree (Option String) (Value ι))} (h : u ∈ unfolded) :
    u.2.height ≤ heights unfolded := by
  unfold heights
  induction unfolded with
  | nil => cases h
  | cons first rest ih =>
    simp only [List.map_cons, List.foldr_cons]
    rcases List.mem_cons.mp h with rfl | h
    · omega
    · have := ih h
      omega

variable {tree : Tree (Option String) (Value ι)} {below : List (Frame ι)} {id : ι}

/-- What a frame has accounted for and the member it waits for fit in the tree of
its node. -/
theorem Accounts.room {frame : Frame ι} {k : ℕ} {member : Option String × Value ι}
    (h : Accounts doc contentType frame k) (hindex : frame.childIndex = k + 1)
    (hmember : (contents doc frame.value)[k]? = some member)
    (htree : (graph doc).Unfolds (.node frame.value) tree) :
    ∃ child rest, (graph doc).Unfolds member.2 child ∧ child.height + 1 ≤ tree.height ∧
      sizeOf contentType tree = frame.size + (sizeOf contentType child).deeper + rest := by
  obtain ⟨unfolded, hunfolded, hsize, -⟩ := h.parts
  have htarget : (graph doc).target (.node frame.value) = some frame.value := rfl
  obtain ⟨all, rfl, hall⟩ := htree.members htarget
  rw [graph_members] at hall
  have hfirst : unfolded = all.take k := Graph.forall₂_unique hunfolded (List.forall₂_take k hall)
  obtain ⟨hk, hget⟩ := List.getElem?_eq_some_iff.mp hmember
  have hdrop := List.forall₂_drop k hall
  rw [List.drop_eq_getElem_cons hk, hget] at hdrop
  generalize htail : all.drop k = tail at hdrop
  cases hdrop with
  | @cons _ u _ after hu hafter =>
    have hsplit : all = unfolded ++ u :: after := by
      rw [hfirst, ← htail, List.take_append_drop]
    have hmem : u ∈ all := by simp [hsplit]
    refine ⟨u.2, (((contents doc frame.value).drop (k + 1)).map (visited contentType)).sum +
      nested contentType after, hu.2, ?_, ?_⟩
    · rw [Tree.height_node]
      exact Nat.succ_le_succ (height_le_heights hmem)
    · have hvisits := congrArg (fun members => (List.map (visited contentType) members).sum)
        (List.take_append_drop (k + 1) (contents doc frame.value))
      simp only [List.map_append, List.sum_append] at hvisits
      rw [sizeOf_node hall, ← keysSize_eq, ← hvisits, hsize, hindex, hsplit]
      simp only [nested, List.map_append, List.sum_append, List.map_cons, List.sum_cons]
      abel

/-- The frames of a stack and the tree of the node they wait for fit in the
root's tree. -/
theorem Waiting.room {depth : ℕ} (h : Waiting doc contentType root id depth below)
    (htree : (graph doc).Unfolds (.node root) tree) :
    ∃ child, (graph doc).Unfolds (.node id) child ∧ depth + child.height ≤ tree.height + 1 ∧
      atDepth depth (sizeOf contentType child) + prices below ≤ expandedBytes contentType tree := by
  induction h with
  | root =>
    refine ⟨tree, htree, by omega, ?_⟩
    rw [expandedBytes_eq, prices_nil, add_zero]
  | @child frame below key child k haccounts hindex hmember _ ih =>
    obtain ⟨parent, hparent, hheight, hbytes⟩ := ih
    obtain ⟨inner, rest, hinner, hlower, hsize⟩ := haccounts.room hindex hmember hparent
    refine ⟨inner, hinner, by omega, ?_⟩
    rw [hsize] at hbytes
    simp only [map_add, atDepth_deeper haccounts.first] at hbytes
    rw [prices_cons, Frame.price]
    omega

/-- The frames below a node are its ancestors. -/
theorem Waiting.ancestor {depth : ℕ} (h : Waiting doc contentType root id depth below) :
    ∀ frame ∈ below, Relation.TransGen (graph doc).Child id frame.value := by
  induction h with
  | root => simp
  | @child frame below key child k _ _ hmember _ ih =>
    have hchild : (graph doc).Child child frame.value :=
      ⟨_, List.mem_of_getElem? hmember, rfl⟩
    intro other hother
    rcases List.mem_cons.mp hother with rfl | hother
    · exact .single hchild
    · exact .head hchild (ih other hother)

theorem not_cycle (h : (graph doc).Unfolds (.node id) tree) :
    ¬ Relation.TransGen (graph doc).Child id id :=
  Graph.acyclic_of_unfolds h id rfl id .refl

theorem one_le_height (h : (graph doc).Unfolds (.node id) tree) : 1 ≤ tree.height := by
  have htarget : (graph doc).target (.node id) = some id := rfl
  obtain ⟨members, rfl, -⟩ := h.members htarget
  rw [Tree.height_node]
  omega

theorem keysSize_le (contentType : ContentType) (depth : ℕ)
    (h : (graph doc).Unfolds (.node id) tree) :
    atDepth depth (keysSize doc contentType id) ≤ atDepth depth (sizeOf contentType tree) := by
  have htarget : (graph doc).target (.node id) = some id := rfl
  obtain ⟨members, rfl, hmembers⟩ := h.members htarget
  rw [sizeOf_node hmembers, keysSize_eq, add_assoc, map_add, graph_members]
  omega

/-- A document whose tree is within the limits. -/
structure Fits (doc : Document ι) (contentType : ContentType) (root : ι)
    (tree : Tree (Option String) (Value ι)) : Prop where
  unfolds : (graph doc).Unfolds (.node root) tree
  bytes : expandedBytes contentType tree ≤ MAX_SPEC_EXPANDED_BYTES
  depth : tree.height ≤ MAX_SPEC_DEPTH

variable [DecidableEq ι]

theorem push_ok {walk : Walk ι} {depth : ℕ} {child : Tree (Option String) (Value ι)}
    (hfits : Fits doc contentType root tree) (hkept : Kept doc contentType walk)
    (hwait : Waiting doc contentType root id depth walk.pending)
    (htotal : walk.total = prices walk.pending) (hchild : (graph doc).Unfolds (.node id) child) :
    ∃ walk', push .unbounded doc contentType walk id depth = .ok walk' := by
  obtain ⟨child', hchild', hheight, hbytes⟩ := hwait.room hfits.unfolds
  obtain rfl := hchild.unique hchild'
  have hone := one_le_height hchild
  have hkeys := keysSize_le contentType depth hchild
  have hfitsBytes := hfits.bytes
  have hfitsDepth := hfits.depth
  have hactive : walk.active id ≠ true := by
    intro hactive
    obtain ⟨frame, hframe, hvalue⟩ := hkept.active id hactive
    exact not_cycle hchild (hvalue ▸ hwait.ancestor frame hframe)
  rw [push_unbounded id depth hkept.limit, if_neg (by omega), if_neg hactive, if_neg (by omega)]
  exact ⟨_, rfl⟩

theorem descend_ok {walk : Walk ι} {frame : Frame ι} {key : Option String} {child : ι} {k : ℕ}
    (hfits : Fits doc contentType root tree)
    (hkept : Kept doc contentType { walk with pending := frame :: below })
    (haccounts : Accounts doc contentType frame k) (hindex : frame.childIndex = k + 1)
    (hmember : (contents doc frame.value)[k]? = some (key, .node child))
    (hwait : Waiting doc contentType root frame.value frame.depth below)
    (htotal : walk.total = prices (frame :: below)) :
    ∃ walk', descend .unbounded doc contentType walk frame below child = .ok walk' := by
  have hwaits := Waiting.child haccounts hindex hmember hwait
  obtain ⟨inner, hinner, hheight, hbytes⟩ := hwaits.room hfits.unfolds
  have hactive : walk.active child ≠ true := by
    intro hactive
    obtain ⟨other, hother, hvalue⟩ := hkept.active child hactive
    exact not_cycle hinner (hvalue ▸ hwaits.ancestor other hother)
  unfold SpecShape.descend
  rw [if_neg hactive]
  cases hmemo : walk.completedHeights child with
  | none => exact push_ok hfits hkept hwaits htotal hinner
  | some height =>
    obtain ⟨tree', htree', rfl, hsize, -⟩ := hkept.memo child height hmemo
    obtain rfl := hinner.unique htree'
    have hfitsBytes := hfits.bytes
    have hfitsDepth := hfits.depth
    simp only [show walk.completedSizes child = _ from hsize]
    have hone : 1 ≤ (frame.over inner.height).depth := haccounts.first
    rw [if_neg (by omega), chargeCompleted_unbounded walk below _ hone, Frame.over_depth,
      atDepth_deeper haccounts.first, htotal, if_neg (by omega)]
    exact ⟨_, rfl⟩

/-- No round refuses a document within the limits. -/
theorem Sound.turn_ok {walk : Walk ι} (h : Sound doc contentType root walk)
    (hfits : Fits doc contentType root tree) :
    ∃ walk', SpecShape.turn .unbounded doc contentType walk = .ok walk' := by
  cases hpending : walk.pending with
  | nil => exact ⟨walk, by simp [SpecShape.turn, hpending]⟩
  | cons frame below =>
    have hstack := h.stack
    rw [hpending] at hstack
    obtain ⟨haccounts, hwait, htotal⟩ := hstack
    cases hchild : frame.children[frame.childIndex]? with
    | none => exact ⟨_, by simp only [SpecShape.turn, hpending, hchild]; rfl⟩
    | some value =>
      obtain ⟨key, hmember⟩ := getElem?_values doc (haccounts.children ▸ hchild)
      have hvisit := haccounts.visit hmember
      obtain ⟨inner, hinner, -, hbytes⟩ := hwait.room hfits.unfolds
      obtain ⟨child, rest, -, -, hsize⟩ := hvisit.room rfl hmember hinner
      have hlimit : walk.total + atDepth frame.depth (visited contentType (key, value)) ≤
          MAX_SPEC_EXPANDED_BYTES := by
        have hfitsBytes := hfits.bytes
        rw [hsize] at hbytes
        simp only [Frame.plus_size, Frame.next_size, map_add] at hbytes
        rw [htotal, prices_cons, Frame.price]
        omega
      have hprices : walk.total + atDepth frame.depth (visited contentType (key, value)) =
          prices (frame.next.plus (visited contentType (key, value)) :: below) := by
        simp only [htotal, prices_cons, Frame.price_plus, Frame.price_next, Frame.next_depth]
        omega
      rw [turn_member hpending haccounts.children hmember h.limit, if_neg (Nat.not_lt.mpr hlimit)]
      cases hvalue : container? value with
      | none => exact ⟨_, rfl⟩
      | some id =>
        obtain rfl : value = .node id := by
          cases value <;> simp_all [container?]
        exact descend_ok hfits (h.toKept.replace hpending rfl hlimit) hvisit rfl hmember hwait
          hprices

end Room

/-! ## The walk ends -/

section Ending

variable (doc : Document ι)

/-- Rounds a frame can still take without using up the limit: its own end, and
two for each member whose key was charged with the others. -/
def Frame.left (frame : Frame ι) : ℕ :=
  1 + if isArray doc frame.value then 0 else 2 * (frame.children.length - frame.childIndex)

/-- What the rounds of a walk use up. -/
def Walk.left (walk : Walk ι) : ℕ :=
  MAX_SPEC_EXPANDED_BYTES - walk.total + (walk.pending.map (Frame.left doc)).sum

variable {doc}

theorem one_le_lines (contentType : ContentType) (text : String) : 1 ≤ lines contentType text := by
  cases contentType with
  | json => exact le_rfl
  | yaml => exact Nat.le_add_right 1 _

theorem four_le_visited (contentType : ContentType) (depth : ℕ) (key : Option String) {value : Value ι}
    (h : container? value = none) : 4 ≤ atDepth depth (visited contentType (key, value)) := by
  have hitems : 1 ≤ (visited contentType (key, value)).chargedItems := by
    cases value with
    | string s => exact one_le_lines contentType s
    | node id => cases h
    | _ => exact le_rfl
  have := (le_atDepth depth (visited contentType (key, value))).2.1
  omega

theorem four_le_item (contentType : ContentType) (depth : ℕ) (child : ι) :
    4 ≤ atDepth depth (visited contentType (none, Value.node child)) := by
  have := (le_atDepth depth (visited contentType (none, Value.node child))).2.1
  have hone : (visited contentType (none, Value.node child)).chargedItems = 1 := rfl
  omega

/-- Every key uses up more than the two rounds its member can take. -/
theorem keys_le (doc : Document ι) (contentType : ContentType) (depth : ℕ) (id : ι) :
    4 * (chargedKeys doc id).length ≤ atDepth depth (keysSize doc contentType id) := by
  have hitems : (chargedKeys doc id).length ≤ (keysSize doc contentType id).chargedItems := by
    unfold keysSize
    induction chargedKeys doc id with
    | nil => simp
    | cons key keys ih =>
      have hone : 1 ≤ (keySize contentType key).chargedItems := one_le_lines contentType key
      simp only [List.length_cons, List.map_cons, List.sum_cons, add_chargedItems]
      omega
  have := (le_atDepth depth (keysSize doc contentType id)).2.1
  omega

theorem left_newFrame (doc : Document ι) (depth : ℕ) (id : ι) (size : CompletedSize) :
    ((newFrame doc id depth).plus size).left doc ≤ 1 + 2 * (chargedKeys doc id).length := by
  simp only [Frame.left, Frame.plus_value, Frame.plus_children, Frame.plus_childIndex, newFrame]
  cases hnode : doc.nodes id <;> simp [isArray, chargedKeys, values, hnode]

@[simp] theorem left_plus (frame : Frame ι) (size : CompletedSize) :
    (frame.plus size).left doc = frame.left doc := rfl

@[simp] theorem left_over (frame : Frame ι) (height : ℕ) :
    (frame.over height).left doc = frame.left doc := rfl

theorem left_next_le (doc : Document ι) (frame : Frame ι) : frame.next.left doc ≤ frame.left doc := by
  unfold Frame.left
  cases harray : isArray doc frame.value with
  | true => simp [harray]
  | false =>
    simp only [Frame.next_value, Frame.next_children, Frame.next_childIndex, harray]
    simp only [Bool.false_eq_true, if_false]
    omega

theorem left_next_record {frame : Frame ι} (harray : isArray doc frame.value = false)
    (hindex : frame.childIndex < frame.children.length) :
    frame.next.left doc + 2 = frame.left doc := by
  simp only [Frame.left, Frame.next_value, Frame.next_children, Frame.next_childIndex, harray]
  simp only [Bool.false_eq_true, if_false]
  omega

variable [DecidableEq ι]

theorem left_push {walk walk' : Walk ι} {id : ι} {depth : ℕ}
    (htotal : walk.total ≤ MAX_SPEC_EXPANDED_BYTES)
    (h : push .unbounded doc contentType walk id depth = .ok walk') :
    walk'.left doc ≤ walk.left doc + 1 := by
  rw [push_unbounded id depth htotal] at h
  split_ifs at h with hdepth hactive hlimit
  obtain rfl := Except.ok.inj h
  have hkeys := keys_le doc contentType depth id
  have hframe := left_newFrame doc depth id (keysSize doc contentType id)
  simp only [Walk.left, pushed, List.map_cons, List.sum_cons]
  omega

/-- Past the item charge, descending takes at most one round more. -/
theorem left_descend {walk walk' : Walk ι} {frame : Frame ι} {below : List (Frame ι)} {child : ι}
    (hkept : Kept doc contentType { walk with pending := frame :: below })
    (hfirst : 1 ≤ frame.depth)
    (h : descend .unbounded doc contentType walk frame below child = .ok walk') :
    walk'.left doc ≤ Walk.left doc { walk with pending := frame :: below } + 1 := by
  unfold descend at h
  split_ifs at h with hactive
  cases hheight : walk.completedHeights child with
  | none =>
    simp only [hheight] at h
    exact left_push hkept.limit h
  | some height =>
    obtain ⟨tree, -, -, hsize, -⟩ := hkept.memo child height hheight
    simp only [hheight, show walk.completedSizes child = _ from hsize] at h
    split_ifs at h with hdepth
    rw [chargeCompleted_unbounded walk below _ (by exact hfirst)] at h
    split_ifs at h with hlimit
    obtain rfl := Except.ok.inj h
    simp only [Walk.left, List.map_cons, List.sum_cons, left_plus, left_over]
    omega

/-- Every round uses something up. -/
theorem left_turn {walk walk' : Walk ι} (h : Sound doc contentType root walk)
    (hopen : walk.pending ≠ []) (hturn : turn .unbounded doc contentType walk = .ok walk') :
    walk'.left doc < walk.left doc := by
  obtain ⟨frame, below, hpending⟩ := List.exists_cons_of_ne_nil hopen
  have hstack := h.stack
  rw [hpending] at hstack
  obtain ⟨haccounts, -, -⟩ := hstack
  cases hchild : frame.children[frame.childIndex]? with
  | none =>
    simp only [turn, hpending, hchild] at hturn
    obtain rfl := Except.ok.inj hturn
    have hone : 1 ≤ frame.left doc := Nat.le_add_right 1 _
    cases below with
    | nil =>
      simp only [Walk.left, complete, hpending, List.map_cons, List.map_nil, List.sum_cons,
        List.sum_nil]
      omega
    | cons parent rest =>
      have hparent : Frame.left doc
          ((parent.over (frame.maxChildHeight + 1)).plus frame.size.deeper) = parent.left doc := rfl
      show _ + (List.map (Frame.left doc)
        ((parent.over (frame.maxChildHeight + 1)).plus frame.size.deeper :: rest)).sum < _
      simp only [Walk.left, complete, hpending, List.map_cons, List.sum_cons, hparent]
      omega
  | some value =>
    obtain ⟨key, hmember⟩ := getElem?_values doc (haccounts.children ▸ hchild)
    have hindex := (List.getElem?_eq_some_iff.mp hchild).1
    rw [turn_member hpending haccounts.children hmember h.limit] at hturn
    split_ifs at hturn with hlimit
    have hnext := left_next_le doc frame
    cases hvalue : container? value with
    | none =>
      have hfour := four_le_visited contentType frame.depth key hvalue
      simp only [hvalue, Option.elim_none, Except.ok.injEq] at hturn
      subst hturn
      simp only [Walk.left, hpending, List.map_cons, List.sum_cons, left_plus]
      omega
    | some child =>
      obtain rfl : value = .node child := by
        cases value <;> simp_all [container?]
      simp only [hvalue, Option.elim_some] at hturn
      have hkept : Kept doc contentType
          { walk with
            pending := frame.next.plus (visited contentType (key, .node child)) :: below
            total := walk.total + atDepth frame.depth (visited contentType (key, .node child)) } :=
        h.toKept.replace hpending rfl (Nat.not_lt.mp hlimit)
      have hdescend := left_descend hkept (by exact haccounts.first) hturn
      -- an item of an array is charged, a member of a record was
      have harray := isArray_of_mem doc (List.mem_of_getElem? hmember)
      cases key with
      | none =>
        have hfour := four_le_item contentType frame.depth child
        simp only [Walk.left, hpending, List.map_cons, List.sum_cons, left_plus] at hdescend ⊢
        omega
      | some key =>
        have htwo := left_next_record harray hindex
        simp only [Walk.left, hpending, List.map_cons, List.sum_cons, left_plus] at hdescend ⊢
        omega

end Ending

end FerrumNexus.Publishing.SpecShape
