import FerrumNexus.Publishing.SpecShapeWalk

/-!
# What every round of the walk keeps

All numbers being exact, the frames of the stack are a path from the root, each
waiting for the member it last visited, and what is remembered of a node is what
it unfolds to. Each round keeps this, and the walk ends with the root's tree.
-/
namespace FerrumNexus.Publishing.SpecShape

open OpenApi Platform Graphs CompletedSize

variable {ι : Type} {doc : Document ι} {contentType : ContentType} {root : ι}

/-! ## The invariant -/

/-- The frames below a node at a depth: each waits for the member it last
visited, down to the root. -/
inductive Waiting (doc : Document ι) (contentType : ContentType) (root : ι) :
    ι → ℕ → List (Frame ι) → Prop
  | root : Waiting doc contentType root root 1 []
  | child {frame : Frame ι} {below : List (Frame ι)} {key : Option String} {child : ι} {k : ℕ} :
    Accounts doc contentType frame k → frame.childIndex = k + 1 →
    (contents doc frame.value)[k]? = some (key, .node child) →
    Waiting doc contentType root frame.value frame.depth below →
    Waiting doc contentType root child (frame.depth + 1) (frame :: below)

/-- What frames take together. -/
def prices (frames : List (Frame ι)) : ℕ := (frames.map Frame.price).sum

@[simp] theorem prices_nil : prices ([] : List (Frame ι)) = 0 := rfl

@[simp] theorem prices_cons (frame : Frame ι) (frames : List (Frame ι)) :
    prices (frame :: frames) = frame.price + prices frames := by
  simp [prices]

variable {frame : Frame ι} {below : List (Frame ι)} {depth total : ℕ} {walk : Walk ι}

theorem price_le_prices {frames : List (Frame ι)} (h : frame ∈ frames) :
    frame.price ≤ prices frames :=
  List.single_le_sum (fun _ _ => Nat.zero_le _) _ (List.mem_map_of_mem h)

/-- What the loop knows apart from its stack. -/
structure Kept (doc : Document ι) (contentType : ContentType) (walk : Walk ι) : Prop where
  limit : walk.total ≤ MAX_SPEC_EXPANDED_BYTES
  active : ∀ id, walk.active id = true → ∃ frame ∈ walk.pending, frame.value = id
  memo : ∀ id height, walk.completedHeights id = some height →
    ∃ tree, (graph doc).Unfolds (.node id) tree ∧ tree.height = height ∧
      walk.completedSizes id = some (sizeOf contentType tree) ∧
      expandedBytes contentType tree ≤ MAX_SPEC_EXPANDED_BYTES

/-- The stack and the total: while a frame is open, the total is what the frames
take; at the end, what the root's tree takes. -/
def Stacked (doc : Document ι) (contentType : ContentType) (root : ι) (total : ℕ) :
    List (Frame ι) → Prop
  | [] => ∃ tree, (graph doc).Unfolds (.node root) tree ∧
      total = expandedBytes contentType tree ∧ tree.height ≤ MAX_SPEC_DEPTH
  | frame :: below => Accounts doc contentType frame frame.childIndex ∧
      Waiting doc contentType root frame.value frame.depth below ∧
      total = prices (frame :: below)

structure Sound (doc : Document ι) (contentType : ContentType) (root : ι) (walk : Walk ι) : Prop
    extends Kept doc contentType walk where
  stack : Stacked doc contentType root walk.total walk.pending

theorem kept_none : Kept doc contentType (Walk.none : Walk ι) := by
  constructor
  · exact Nat.zero_le _
  · intro id hid
    cases hid
  · intro id height hid
    cases hid

theorem Waiting.one_le {id : ι} (h : Waiting doc contentType root id depth below) : 1 ≤ depth := by
  cases h <;> omega

/-! ## The steps of a round -/

/-- A child's remembered size, one level up. -/
theorem chargeCompleted_unbounded (walk : Walk ι) (below : List (Frame ι)) (size : CompletedSize)
    (hdepth : 1 ≤ frame.depth) :
    chargeCompleted .unbounded walk frame below size =
      if MAX_SPEC_EXPANDED_BYTES < walk.total + atDepth frame.depth size.deeper then
        .error expandedTooLarge
      else .ok { walk with
        pending := frame.plus size.deeper :: below
        total := walk.total + atDepth frame.depth size.deeper } := by
  rw [atDepth_deeper hdepth]
  simp [chargeCompleted, atDepth_apply]
  rfl

/-- The item a container in an array is. -/
theorem charge_item (contentType : ContentType) {key : Option String} {child : ι}
    (hmem : (key, Value.node child) ∈ contents doc frame.value)
    (htotal : total ≤ MAX_SPEC_EXPANDED_BYTES) :
    chargeItem .unbounded doc frame total =
      if MAX_SPEC_EXPANDED_BYTES <
          total + atDepth frame.depth (visited contentType (key, .node child)) then
        .error expandedTooLarge
      else .ok (frame.plus (visited contentType (key, .node child)),
        total + atDepth frame.depth (visited contentType (key, .node child))) := by
  rw [chargeItem, isArray_of_mem doc hmem]
  cases key with
  | none => exact charge_unbounded frame total 0 1
  | some key =>
    have hzero : visited contentType (some key, Value.node child) = 0 := rfl
    rw [hzero, map_zero, add_zero, if_neg (Nat.not_lt.mpr htotal)]
    rfl

theorem accounts_newFrame {id : ι} (hfirst : 1 ≤ depth) (hdepth : depth ≤ MAX_SPEC_DEPTH) :
    Accounts doc contentType ((newFrame doc id depth).plus (keysSize doc contentType id)) 0 := by
  refine ⟨rfl, hfirst, by simpa [newFrame] using hdepth, [], .nil, ?_, rfl⟩
  simp only [Frame.plus_size, Frame.plus_value, Frame.plus_childIndex]
  show (0 : CompletedSize) + keysSize doc contentType id = keysSize doc contentType id + 0 + 0
  abel

/-- What is kept when the last frame changes its counts only. -/
theorem Kept.replace {frame' : Frame ι} (h : Kept doc contentType walk)
    (hpending : walk.pending = frame :: below) (hvalue : frame'.value = frame.value)
    (htotal : total ≤ MAX_SPEC_EXPANDED_BYTES) :
    Kept doc contentType { walk with pending := frame' :: below, total := total } := by
  refine ⟨htotal, ?_, h.memo⟩
  intro id hid
  obtain ⟨other, hother, hsame⟩ := h.active id hid
  rw [hpending] at hother
  rcases List.mem_cons.mp hother with rfl | hother
  · exact ⟨frame', List.mem_cons_self, hvalue.trans hsame⟩
  · exact ⟨other, List.mem_cons_of_mem _ hother, hsame⟩

variable [DecidableEq ι]

/-- The walk with a new frame, its keys charged. -/
def pushed (doc : Document ι) (contentType : ContentType) (walk : Walk ι) (id : ι) (depth : ℕ) :
    Walk ι :=
  { walk with
    active := Function.update walk.active id true
    pending := (newFrame doc id depth).plus (keysSize doc contentType id) :: walk.pending
    total := walk.total + atDepth depth (keysSize doc contentType id) }

theorem push_unbounded (id : ι) (depth : ℕ) (htotal : walk.total ≤ MAX_SPEC_EXPANDED_BYTES) :
    push .unbounded doc contentType walk id depth =
      if MAX_SPEC_DEPTH < depth then .error nestingTooDeep
      else if walk.active id then .error cyclicAlias
      else if MAX_SPEC_EXPANDED_BYTES < walk.total + atDepth depth (keysSize doc contentType id) then
        .error expandedTooLarge
      else .ok (pushed doc contentType walk id depth) := by
  have hkeys := chargeKeys_unbounded contentType (chargedKeys doc id) (newFrame doc id depth) htotal
  rw [← keysSize, show (newFrame doc id depth).depth = depth from rfl] at hkeys
  unfold push
  rw [hkeys]
  split_ifs <;> rfl

/-- A round that visits a member. -/
theorem turn_member {member : Option String × Value ι} (hpending : walk.pending = frame :: below)
    (hchildren : frame.children = values doc frame.value)
    (hmember : (contents doc frame.value)[frame.childIndex]? = some member)
    (htotal : walk.total ≤ MAX_SPEC_EXPANDED_BYTES) :
    turn .unbounded doc contentType walk =
      if MAX_SPEC_EXPANDED_BYTES <
          walk.total + atDepth frame.depth (visited contentType member) then
        .error expandedTooLarge
      else
        let frame' := frame.next.plus (visited contentType member)
        let total' := walk.total + atDepth frame.depth (visited contentType member)
        (container? member.2).elim
          (.ok { walk with pending := frame' :: below, total := total' })
          (descend .unbounded doc contentType { walk with total := total' } frame' below) := by
  obtain ⟨key, value⟩ := member
  obtain ⟨active, completedHeights, completedSizes, pending, total⟩ := walk
  subst hpending
  have hvalue : frame.children[frame.childIndex]? = some value := by
    rw [hchildren, values_eq, List.getElem?_map, hmember]
    rfl
  have hmem := List.mem_of_getElem? hmember
  have hcharge := charge_unbounded frame.next total (scalarBytes value)
    (scalarItems .unbounded contentType value)
  rw [Frame.next_depth] at hcharge
  unfold turn
  simp only [hvalue]
  cases value with
  | node child =>
    have hitem := charge_item contentType
      (show (key, Value.node child) ∈ contents doc frame.next.value from hmem) htotal
    rw [Frame.next_depth] at hitem
    simp only [enter]
    rw [hitem]
    split_ifs <;> rfl
  | _ =>
    rw [← visitSize_eq_scalar key rfl]
    simp only
    rw [hcharge]
    split_ifs <;> rfl

/-! ## Every round keeps the invariant -/

variable {walk' : Walk ι}

/-- A new frame on top of frames that wait for it. -/
theorem Sound.pushed {id : ι} (hkept : Kept doc contentType walk)
    (hwait : Waiting doc contentType root id depth walk.pending)
    (htotal : walk.total = prices walk.pending)
    (h : push .unbounded doc contentType walk id depth = .ok walk') :
    Sound doc contentType root walk' := by
  rw [push_unbounded id depth hkept.limit] at h
  split_ifs at h with hdepth hactive hlimit
  obtain rfl := Except.ok.inj h
  refine ⟨⟨Nat.not_lt.mp hlimit, ?_, hkept.memo⟩, ?_, hwait, ?_⟩
  · intro other hother
    by_cases hid : other = id
    · exact ⟨_, List.mem_cons_self, hid.symm⟩
    · simp only [SpecShape.pushed, Function.update_of_ne hid] at hother
      obtain ⟨frame, hframe, hvalue⟩ := hkept.active other hother
      exact ⟨frame, List.mem_cons_of_mem _ hframe, hvalue⟩
  · exact accounts_newFrame hwait.one_le (Nat.not_lt.mp hdepth)
  · rw [prices_cons, Frame.price_plus, ← htotal]
    have hzero : (newFrame doc id depth).price = 0 := by
      simp [Frame.price, Frame.size, newFrame, atDepth_apply]
    have hsame : (newFrame doc id depth).depth = depth := rfl
    rw [hzero, hsame]
    simp only [SpecShape.pushed]
    omega

theorem Sound.descend {key : Option String} {child : ι} {k : ℕ}
    (hkept : Kept doc contentType { walk with pending := frame :: below })
    (haccounts : Accounts doc contentType frame k) (hindex : frame.childIndex = k + 1)
    (hmember : (contents doc frame.value)[k]? = some (key, .node child))
    (hwait : Waiting doc contentType root frame.value frame.depth below)
    (htotal : walk.total = prices (frame :: below))
    (h : descend .unbounded doc contentType walk frame below child = .ok walk') :
    Sound doc contentType root walk' := by
  unfold SpecShape.descend at h
  split_ifs at h with hactive
  cases hheight : walk.completedHeights child with
  | none =>
    simp only [hheight] at h
    exact Sound.pushed hkept (.child haccounts hindex hmember hwait) htotal h
  | some height =>
    obtain ⟨tree, htree, rfl, hsize, -⟩ := hkept.memo child height hheight
    simp only [hheight] at h
    split_ifs at h with hdepth
    simp only [show walk.completedSizes child = _ from hsize] at h
    rw [chargeCompleted_unbounded walk below _ (by exact haccounts.first)] at h
    split_ifs at h with hlimit
    obtain rfl := Except.ok.inj h
    have hsettled := haccounts.settle hmember htree (Nat.not_lt.mp hdepth)
    refine ⟨hkept.replace rfl rfl (Nat.not_lt.mp hlimit), ?_, hwait, ?_⟩
    · rw [Frame.plus_childIndex, Frame.over_childIndex, hindex]
      exact hsettled
    · simp only [prices_cons, Frame.price_plus, Frame.price_over, Frame.over_depth, htotal]
      omega

/-- What the stack is once its last frame is completed. -/
theorem stacked_complete {tree : Tree (Option String) (Value ι)}
    (hwait : Waiting doc contentType root frame.value frame.depth below)
    (htotal : walk.total = prices (frame :: below))
    (hwithin : frame.depth + frame.maxChildHeight ≤ MAX_SPEC_DEPTH)
    (htree : (graph doc).Unfolds (.node frame.value) tree)
    (hsize : sizeOf contentType tree = frame.size)
    (hheight : tree.height = frame.maxChildHeight + 1) :
    Stacked doc contentType root walk.total (complete .unbounded walk frame below).pending := by
  cases below with
  | nil =>
    obtain ⟨hvalue, hdepth⟩ : frame.value = root ∧ frame.depth = 1 := by
      generalize frame.value = id at hwait
      generalize frame.depth = depth at hwait
      cases hwait
      exact ⟨rfl, rfl⟩
    refine ⟨tree, hvalue ▸ htree, ?_, by omega⟩
    rw [htotal, expandedBytes_eq, hsize, prices_cons, prices_nil, Frame.price, hdepth, add_zero]
  | cons parent rest =>
    generalize hid : frame.value = id at hwait
    generalize hlevel : frame.depth = depth at hwait
    cases hwait with
    | @child _ _ key _ k haccounts hindex hmember hbelow =>
      have hsettled := haccounts.settle hmember (hid ▸ htree) (by omega)
      rw [hsize, hheight] at hsettled
      refine ⟨?_, hbelow, ?_⟩
      · show Accounts doc contentType
          ((parent.over (frame.maxChildHeight + 1)).plus frame.size.deeper) parent.childIndex
        rw [hindex]
        exact hsettled
      · have hprice : frame.price = atDepth parent.depth frame.size.deeper := by
          rw [atDepth_deeper haccounts.first, Frame.price, hlevel]
        show walk.total =
          prices ((parent.over (frame.maxChildHeight + 1)).plus frame.size.deeper :: rest)
        simp only [htotal, prices_cons, Frame.price_plus, Frame.price_over, Frame.over_depth, hprice]
        omega

theorem Sound.complete (h : Sound doc contentType root walk)
    (hpending : walk.pending = frame :: below) (hend : frame.children[frame.childIndex]? = none) :
    Sound doc contentType root (complete .unbounded walk frame below) := by
  have hstack := h.stack
  rw [hpending] at hstack
  obtain ⟨haccounts, hwait, htotal⟩ := hstack
  obtain ⟨tree, htree, hsize, hheight⟩ := haccounts.complete hend
  refine ⟨⟨h.limit, ?_, ?_⟩, stacked_complete hwait htotal haccounts.within htree hsize hheight⟩
  · intro id hid
    have hne : id ≠ frame.value := by
      rintro rfl
      simp [SpecShape.complete] at hid
    simp only [SpecShape.complete, Function.update_of_ne hne] at hid
    obtain ⟨other, hother, hvalue⟩ := h.active id hid
    rw [hpending, List.mem_cons] at hother
    obtain rfl | hother := hother
    · exact absurd hvalue.symm hne
    · cases below with
      | nil => cases hother
      | cons parent rest =>
        rcases List.mem_cons.mp hother with rfl | hother
        · exact ⟨_, List.mem_cons_self, hvalue⟩
        · exact ⟨other, List.mem_cons_of_mem _ hother, hvalue⟩
  · intro id height hid
    by_cases hsame : id = frame.value
    · subst hsame
      simp only [SpecShape.complete, Function.update_self, Option.some.injEq] at hid ⊢
      refine ⟨tree, htree, by omega, hsize.symm, ?_⟩
      calc expandedBytes contentType tree = atDepth 1 frame.size := by
            rw [expandedBytes_eq, hsize]
        _ ≤ frame.price := atDepth_one_le frame.depth frame.size
        _ ≤ walk.total := htotal ▸ price_le_prices List.mem_cons_self
        _ ≤ MAX_SPEC_EXPANDED_BYTES := h.limit
    · simp only [SpecShape.complete, Function.update_of_ne hsame] at hid ⊢
      exact h.memo id height hid

/-- Every round keeps the invariant. -/
theorem Sound.turn (h : Sound doc contentType root walk)
    (hturn : turn .unbounded doc contentType walk = .ok walk') :
    Sound doc contentType root walk' := by
  cases hpending : walk.pending with
  | nil =>
    have hsame : SpecShape.turn .unbounded doc contentType walk = .ok walk := by
      simp [SpecShape.turn, hpending]
    rw [hsame] at hturn
    exact Except.ok.inj hturn ▸ h
  | cons frame below =>
    have hstack := h.stack
    rw [hpending] at hstack
    obtain ⟨haccounts, hwait, htotal⟩ := hstack
    cases hchild : frame.children[frame.childIndex]? with
    | none =>
      simp only [SpecShape.turn, hpending, hchild] at hturn
      exact Except.ok.inj hturn ▸ h.complete hpending hchild
    | some value =>
      obtain ⟨key, hmember⟩ := getElem?_values doc (haccounts.children ▸ hchild)
      rw [turn_member hpending haccounts.children hmember h.limit] at hturn
      split_ifs at hturn with hlimit
      have hvisit := haccounts.visit hmember
      have hprices : walk.total + atDepth frame.depth (visited contentType (key, value)) =
          prices (frame.next.plus (visited contentType (key, value)) :: below) := by
        simp only [htotal, prices_cons, Frame.price_plus, Frame.price_next, Frame.next_depth]
        omega
      have hkept : Kept doc contentType
          { walk with
            pending := frame.next.plus (visited contentType (key, value)) :: below
            total := walk.total + atDepth frame.depth (visited contentType (key, value)) } :=
        h.toKept.replace hpending rfl (Nat.not_lt.mp hlimit)
      cases hvalue : container? value with
      | none =>
        simp only [hvalue, Option.elim_none, Except.ok.injEq] at hturn
        subst hturn
        -- a scalar is a leaf, which adds nothing below
        have hsettled := hvisit.settle hmember (Graph.unfolds_leaf hvalue)
          (by simpa using Nat.le_of_add_right_le hvisit.within)
        refine ⟨hkept, ?_, hwait, hprices⟩
        simpa [sizeOf, Frame.over, Frame.plus, deeper, Frame.next] using hsettled
      | some child =>
        obtain rfl : value = .node child := by
          cases value <;> simp_all [container?]
        simp only [hvalue, Option.elim_some] at hturn
        exact Sound.descend hkept hvisit rfl hmember hwait hprices hturn

theorem Sound.start (h : start .unbounded doc contentType root = .ok walk) :
    Sound doc contentType root walk := by
  exact Sound.pushed kept_none .root rfl h

/-- The invariant holds after any number of rounds. -/
theorem Sound.after {n : ℕ} (h : after .unbounded doc contentType root n = .ok walk) :
    Sound doc contentType root walk := by
  unfold SpecShape.after at h
  cases hstart : SpecShape.start .unbounded doc contentType root with
  | error refusal => simp [hstart, bind, Except.bind] at h
  | ok first =>
    simp only [hstart, bind, Except.bind] at h
    have hfirst := Sound.start hstart
    clear hstart
    induction n generalizing first with
    | zero => exact Except.ok.inj h ▸ hfirst
    | succ n ih =>
      unfold turns at h
      cases hturn : SpecShape.turn .unbounded doc contentType first with
      | error refusal => simp [hturn, bind, Except.bind] at h
      | ok next =>
        simp only [hturn, bind, Except.bind] at h
        have hnext := hfirst.turn hturn
        split at h
        · exact Except.ok.inj h ▸ hnext
        · exact ih next h hnext

end FerrumNexus.Publishing.SpecShape
