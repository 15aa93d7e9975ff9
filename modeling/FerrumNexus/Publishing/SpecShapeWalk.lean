import FerrumNexus.Publishing.SpecShape
import Mathlib.Algebra.BigOperators.Group.List.Basic
import Mathlib.Algebra.Order.BigOperators.Group.List
import Mathlib.Tactic.Abel
import Mathlib.Tactic.Ring

/-!
# What the walk has accounted for

Sizes add up, and a size tells what a node takes at any depth. Each frame of the
walk holds the size of the members visited so far, and the total is what all the
frames take together. What is remembered of a node is the height and the size of
the tree it unfolds to.
-/
namespace FerrumNexus.Publishing.SpecShape

open OpenApi Platform Graphs

variable {ι : Type}

/-! ## Sizes -/

namespace CompletedSize

instance : Add CompletedSize :=
  ⟨fun a b => ⟨a.bytes + b.bytes, a.chargedItems + b.chargedItems,
    a.relativeDepths + b.relativeDepths⟩⟩

instance : Zero CompletedSize := ⟨⟨0, 0, 0⟩⟩

@[simp] theorem add_bytes (a b : CompletedSize) : (a + b).bytes = a.bytes + b.bytes := rfl
@[simp] theorem add_chargedItems (a b : CompletedSize) :
    (a + b).chargedItems = a.chargedItems + b.chargedItems := rfl
@[simp] theorem add_relativeDepths (a b : CompletedSize) :
    (a + b).relativeDepths = a.relativeDepths + b.relativeDepths := rfl
@[simp] theorem zero_bytes : (0 : CompletedSize).bytes = 0 := rfl
@[simp] theorem zero_chargedItems : (0 : CompletedSize).chargedItems = 0 := rfl
@[simp] theorem zero_relativeDepths : (0 : CompletedSize).relativeDepths = 0 := rfl

theorem ext {a b : CompletedSize} (hbytes : a.bytes = b.bytes)
    (hitems : a.chargedItems = b.chargedItems) (hdepths : a.relativeDepths = b.relativeDepths) :
    a = b := by
  cases a
  cases b
  simp_all

instance : AddCommMonoid CompletedSize where
  add_assoc a b c := by apply ext <;> simp [add_assoc]
  zero_add a := by apply ext <;> simp
  add_zero a := by apply ext <;> simp
  add_comm a b := by apply ext <;> simp [add_comm]
  nsmul := nsmulRec

/-- A size seen from one level above. -/
def deeper (size : CompletedSize) : CompletedSize :=
  ⟨size.bytes, size.chargedItems, size.relativeDepths + size.chargedItems⟩

/-- What a node of a size takes when its members are at a depth. -/
def atDepth (depth : ℕ) : CompletedSize →+ ℕ where
  toFun size := size.bytes + size.chargedItems * (2 * (depth - 1) + 4) + 2 * size.relativeDepths
  map_zero' := by simp
  map_add' a b := by
    simp only [add_bytes, add_chargedItems, add_relativeDepths]
    ring

theorem atDepth_apply (depth : ℕ) (size : CompletedSize) :
    atDepth depth size =
      size.bytes + size.chargedItems * (2 * (depth - 1) + 4) + 2 * size.relativeDepths := by
  simp [atDepth]

theorem atDepth_deeper {depth : ℕ} (h : 1 ≤ depth) (size : CompletedSize) :
    atDepth depth size.deeper = atDepth (depth + 1) size := by
  obtain ⟨level, rfl⟩ : ∃ level, depth = level + 1 := ⟨depth - 1, by omega⟩
  simp only [atDepth_apply, deeper, Nat.add_sub_cancel]
  ring

theorem atDepth_one_le (depth : ℕ) (size : CompletedSize) :
    atDepth 1 size ≤ atDepth depth size := by
  have hitems : size.chargedItems * 4 ≤ size.chargedItems * (2 * (depth - 1) + 4) :=
    Nat.mul_le_mul_left _ (by omega)
  simp only [atDepth_apply]
  omega

/-- A size is no more than what it takes anywhere. -/
theorem le_atDepth (depth : ℕ) (size : CompletedSize) :
    size.bytes ≤ atDepth depth size ∧ 4 * size.chargedItems ≤ atDepth depth size ∧
      2 * size.relativeDepths ≤ atDepth depth size := by
  have hitems : 4 * size.chargedItems ≤ size.chargedItems * (2 * (depth - 1) + 4) := by
    rw [mul_comm 4]
    exact Nat.mul_le_mul_left _ (by omega)
  rw [atDepth_apply]
  omega

end CompletedSize

open CompletedSize

/-- What a key is charged. -/
def keySize (contentType : ContentType) (key : String) : CompletedSize :=
  ⟨key.utf8ByteSize, lines contentType key, 0⟩

/-- What a member is charged when it is visited, its own members apart. -/
def visitSize (contentType : ContentType) (key : Option String) : Option (Value ι) → CompletedSize
  | some (.string s) => ⟨s.utf8ByteSize, lines contentType s, 0⟩
  | some scalar => ⟨scalarBytes scalar, 1, 0⟩
  | none => ⟨0, key.elim 1 fun _ => 0, 0⟩

/-- What a member is charged, its own members apart. -/
def memberSize (contentType : ContentType) (key : Option String) (scalar : Option (Value ι)) :
    CompletedSize :=
  key.elim 0 (keySize contentType) + visitSize contentType key scalar

/-- The size of a tree. -/
def sizeOf (contentType : ContentType) (tree : Tree (Option String) (Value ι)) : CompletedSize :=
  tree.sum (memberSize contentType) deeper

theorem atDepth_memberSize (contentType : ContentType) (depth : ℕ) (key : Option String)
    (scalar : Option (Value ι)) :
    atDepth depth (memberSize contentType key scalar) =
      memberPrice contentType depth key scalar := by
  rw [atDepth_apply]
  cases key <;> rcases scalar with _ | value <;> try cases value
  all_goals simp [memberSize, visitSize, keySize, memberPrice, memberBytes, memberLines, scalarBytes]

/-- The size of a tree tells its expansion. -/
theorem expandedBytes_eq (contentType : ContentType) (tree : Tree (Option String) (Value ι)) :
    expandedBytes contentType tree = atDepth 1 (sizeOf contentType tree) :=
  Tree.cost_eq_sum (fun depth _ => atDepth_memberSize contentType depth)
    (fun _ hdepth size => atDepth_deeper hdepth size) tree le_rfl

/-! ## Charges -/

@[simp] theorem unbounded_add (m n : ℕ) : Arithmetic.unbounded.add m n = m + n := rfl

@[simp] theorem unbounded_mul (m n : ℕ) : Arithmetic.unbounded.mul m n = m * n := rfl

theorem foldl_newlines (text : List Char) (items : ℕ) :
    text.foldl (fun items c => if c = '\n' then items + 1 else items) items =
      items + text.count '\n' := by
  induction text generalizing items with
  | nil => simp
  | cons c rest ih =>
    rw [List.foldl_cons, ih, List.count_cons]
    by_cases hc : c = '\n'
    · simp [hc]
      omega
    · simp [hc]

@[simp] theorem stringIndentItems_unbounded (contentType : ContentType) (value : String) :
    stringIndentItems .unbounded contentType value = lines contentType value := by
  cases contentType with
  | json => rfl
  | yaml => exact foldl_newlines value.toList 1

namespace Frame

/-- A frame with more accounted for. -/
def plus (frame : Frame ι) (size : CompletedSize) : Frame ι :=
  { frame with
    bytes := frame.bytes + size.bytes
    chargedItems := frame.chargedItems + size.chargedItems
    relativeDepths := frame.relativeDepths + size.relativeDepths }

/-- What a frame takes. -/
def price (frame : Frame ι) : ℕ := atDepth frame.depth frame.size

variable (frame : Frame ι) (size : CompletedSize) (height : ℕ)

@[simp] theorem plus_value : (frame.plus size).value = frame.value := rfl
@[simp] theorem plus_depth : (frame.plus size).depth = frame.depth := rfl
@[simp] theorem plus_children : (frame.plus size).children = frame.children := rfl
@[simp] theorem plus_childIndex : (frame.plus size).childIndex = frame.childIndex := rfl
@[simp] theorem plus_maxChildHeight :
    (frame.plus size).maxChildHeight = frame.maxChildHeight := rfl
@[simp] theorem plus_size : (frame.plus size).size = frame.size + size := rfl
@[simp] theorem next_value : frame.next.value = frame.value := rfl
@[simp] theorem next_depth : frame.next.depth = frame.depth := rfl
@[simp] theorem next_children : frame.next.children = frame.children := rfl
@[simp] theorem next_childIndex : frame.next.childIndex = frame.childIndex + 1 := rfl
@[simp] theorem next_maxChildHeight : frame.next.maxChildHeight = frame.maxChildHeight := rfl
@[simp] theorem next_size : frame.next.size = frame.size := rfl
@[simp] theorem over_value : (frame.over height).value = frame.value := rfl
@[simp] theorem over_depth : (frame.over height).depth = frame.depth := rfl
@[simp] theorem over_children : (frame.over height).children = frame.children := rfl
@[simp] theorem over_childIndex : (frame.over height).childIndex = frame.childIndex := rfl
@[simp] theorem over_maxChildHeight :
    (frame.over height).maxChildHeight = max frame.maxChildHeight height := rfl
@[simp] theorem over_size : (frame.over height).size = frame.size := rfl

@[simp] theorem price_plus : (frame.plus size).price = frame.price + atDepth frame.depth size := by
  simp [price]

@[simp] theorem price_next : frame.next.price = frame.price := rfl

@[simp] theorem price_over : (frame.over height).price = frame.price := rfl

end Frame

/-- One charge, all numbers being exact. -/
theorem charge_unbounded (frame : Frame ι) (total bytes items : ℕ) :
    charge .unbounded frame total bytes items =
      if MAX_SPEC_EXPANDED_BYTES < total + atDepth frame.depth ⟨bytes, items, 0⟩ then
        .error expandedTooLarge
      else .ok (frame.plus ⟨bytes, items, 0⟩, total + atDepth frame.depth ⟨bytes, items, 0⟩) := by
  simp [charge, atDepth_apply, Frame.plus]
  rfl

/-- The keys of a record are charged together, or the limit is passed on the way. -/
theorem chargeKeys_unbounded (contentType : ContentType) (keys : List String) (frame : Frame ι)
    {total : ℕ} (htotal : total ≤ MAX_SPEC_EXPANDED_BYTES) :
    chargeKeys .unbounded contentType keys frame total =
      if MAX_SPEC_EXPANDED_BYTES <
          total + atDepth frame.depth (keys.map (keySize contentType)).sum then
        .error expandedTooLarge
      else .ok (frame.plus (keys.map (keySize contentType)).sum,
        total + atDepth frame.depth (keys.map (keySize contentType)).sum) := by
  induction keys generalizing frame total with
  | nil =>
    rw [if_neg (by simpa using htotal)]
    simp [chargeKeys, Frame.plus]
  | cons key keys ih =>
    have hcharge : charge .unbounded frame total key.utf8ByteSize (lines contentType key) =
        if MAX_SPEC_EXPANDED_BYTES < total + atDepth frame.depth (keySize contentType key) then
          .error expandedTooLarge
        else .ok (frame.plus (keySize contentType key),
          total + atDepth frame.depth (keySize contentType key)) := charge_unbounded _ _ _ _
    rw [chargeKeys, stringIndentItems_unbounded, hcharge]
    simp only [List.map_cons, List.sum_cons, map_add]
    by_cases hkey : MAX_SPEC_EXPANDED_BYTES <
        total + atDepth frame.depth (keySize contentType key)
    · rw [if_pos hkey, if_pos (by omega)]
      rfl
    · have hstep := ih (frame.plus (keySize contentType key)) (Nat.not_lt.mp hkey)
      rw [if_neg hkey]
      simp only [Frame.plus_depth, add_assoc] at hstep ⊢
      refine hstep.trans ?_
      simp [Frame.plus, add_assoc]

/-! ## Members -/

section Members

variable (doc : Document ι) (contentType : ContentType)

def scalar? : Value ι → Option (Value ι)
  | .node _ => none
  | value => some value

/-- What a member is charged when it is visited. -/
def visited (member : Option String × Value ι) : CompletedSize :=
  visitSize contentType member.1 (scalar? member.2)

/-- What the keys of a node are charged. -/
def keysSize (id : ι) : CompletedSize := ((chargedKeys doc id).map (keySize contentType)).sum

theorem values_eq (id : ι) : values doc id = (contents doc id).map Prod.snd := by
  unfold values contents
  cases doc.nodes id <;> simp [Function.comp_def]

theorem keysSize_eq (id : ι) : keysSize doc contentType id =
    ((contents doc id).map fun member => member.1.elim 0 (keySize contentType)).sum := by
  unfold keysSize chargedKeys contents
  cases doc.nodes id with
  | array items => simp [Function.comp_def]
  | record members => simp [Function.comp_def]

theorem isArray_of_mem {id : ι} {member : Option String × Value ι}
    (h : member ∈ contents doc id) : isArray doc id = member.1.isNone := by
  unfold contents at h
  unfold isArray
  cases hnode : doc.nodes id with
  | array items =>
    simp only [hnode, List.mem_map] at h
    obtain ⟨item, -, rfl⟩ := h
    rfl
  | record members =>
    simp only [hnode, List.mem_map] at h
    obtain ⟨entry, -, rfl⟩ := h
    rfl

theorem getElem?_values {id : ι} {i : ℕ} {value : Value ι} (h : (values doc id)[i]? = some value) :
    ∃ key, (contents doc id)[i]? = some (key, value) := by
  rw [values_eq, List.getElem?_map, Option.map_eq_some_iff] at h
  obtain ⟨member, hmember, rfl⟩ := h
  exact ⟨member.1, hmember⟩

variable {doc contentType}

@[simp] theorem graph_members (id : ι) : (graph doc).members id = contents doc id := rfl

@[simp] theorem graph_target (value : Value ι) : (graph doc).target value = container? value := rfl

theorem leaf?_of_unfolds {value : Value ι} {tree : Tree (Option String) (Value ι)}
    (h : (graph doc).Unfolds value tree) : tree.leaf? = scalar? value := by
  cases value with
  | node id =>
    have htarget : (graph doc).target (.node id) = some id := rfl
    obtain ⟨unfolded, rfl, -⟩ := h.members htarget
    rfl
  | _ =>
    rw [h.leaf rfl]
    rfl

theorem visitSize_eq_scalar {value : Value ι} (key : Option String) (h : container? value = none) :
    (⟨scalarBytes value, scalarItems .unbounded contentType value, 0⟩ : CompletedSize) =
      visited contentType (key, value) := by
  cases value <;> simp_all [scalarBytes, scalarItems, visited, scalar?, visitSize, container?]

/-- The size of what the members of a node unfold to. -/
theorem sizeOf_node {members : List (Option String × Value ι)}
    {unfolded : List (Option String × Tree (Option String) (Value ι))}
    (h : List.Forall₂ (graph doc).UnfoldsMember members unfolded) :
    sizeOf contentType (.node unfolded) =
      (members.map fun member => member.1.elim 0 (keySize contentType)).sum +
        (members.map (visited contentType)).sum +
        (unfolded.map fun u => (sizeOf contentType u.2).deeper).sum := by
  rw [sizeOf, Tree.sum_node]
  induction h with
  | nil => simp
  | @cons member u members unfolded hmember _ ih =>
    have hweight : memberSize contentType u.1 u.2.leaf? =
        member.1.elim 0 (keySize contentType) + visited contentType member := by
      rw [hmember.1, leaf?_of_unfolds hmember.2]
      rfl
    simp only [List.map_cons, List.sum_cons, ih, hweight]
    rw [← sizeOf]
    abel

end Members

/-! ## What a frame accounts for -/

section Accounts

variable (doc : Document ι) (contentType : ContentType)

def heights (unfolded : List (Option String × Tree (Option String) (Value ι))) : ℕ :=
  (unfolded.map fun u => u.2.height).foldr max 0

def nested (unfolded : List (Option String × Tree (Option String) (Value ι))) : CompletedSize :=
  (unfolded.map fun u => (sizeOf contentType u.2).deeper).sum

/-- A frame holds its keys, the members it has visited, and all of the first
`done` members. -/
structure Accounts (frame : Frame ι) (done : ℕ) : Prop where
  children : frame.children = values doc frame.value
  first : 1 ≤ frame.depth
  within : frame.depth + frame.maxChildHeight ≤ MAX_SPEC_DEPTH
  parts : ∃ unfolded,
    List.Forall₂ (graph doc).UnfoldsMember ((contents doc frame.value).take done) unfolded ∧
    frame.size = keysSize doc contentType frame.value +
      (((contents doc frame.value).take frame.childIndex).map (visited contentType)).sum +
      nested contentType unfolded ∧
    frame.maxChildHeight = heights unfolded

variable {doc contentType}

theorem Accounts.visit {frame : Frame ι} {member : Option String × Value ι}
    (h : Accounts doc contentType frame frame.childIndex)
    (hmember : (contents doc frame.value)[frame.childIndex]? = some member) :
    Accounts doc contentType (frame.next.plus (visited contentType member)) frame.childIndex := by
  obtain ⟨unfolded, hunfolded, hsize, hheight⟩ := h.parts
  refine ⟨h.children, h.first, h.within, unfolded, hunfolded, ?_, hheight⟩
  simp only [Frame.plus_size, Frame.next_size, Frame.plus_value, Frame.next_value,
    Frame.plus_childIndex, Frame.next_childIndex, hsize, List.take_add_one, hmember,
    Option.toList_some, List.map_append, List.sum_append, List.map_cons, List.map_nil,
    List.sum_cons, List.sum_nil]
  abel

theorem Accounts.settle {frame : Frame ι} {k : ℕ} {member : Option String × Value ι}
    {tree : Tree (Option String) (Value ι)} (h : Accounts doc contentType frame k)
    (hmember : (contents doc frame.value)[k]? = some member)
    (htree : (graph doc).Unfolds member.2 tree)
    (hdepth : frame.depth + tree.height ≤ MAX_SPEC_DEPTH) :
    Accounts doc contentType ((frame.over tree.height).plus (sizeOf contentType tree).deeper)
      (k + 1) := by
  obtain ⟨unfolded, hunfolded, hsize, hheight⟩ := h.parts
  have hwithin := h.within
  refine ⟨h.children, h.first, ?_, unfolded ++ [(member.1, tree)], ?_, ?_, ?_⟩
  · show frame.depth + max frame.maxChildHeight tree.height ≤ MAX_SPEC_DEPTH
    omega
  · simp only [Frame.plus_value, Frame.over_value, List.take_add_one, hmember, Option.toList_some]
    exact List.rel_append hunfolded (.cons ⟨rfl, htree⟩ .nil)
  · simp only [Frame.plus_size, Frame.over_size, Frame.plus_value, Frame.over_value,
      Frame.plus_childIndex, Frame.over_childIndex, hsize, nested, List.map_append,
      List.sum_append, List.map_cons, List.map_nil, List.sum_cons, List.sum_nil]
    abel
  · simp only [Frame.plus_maxChildHeight, Frame.over_maxChildHeight, hheight, heights,
      List.map_append, List.foldr_append, List.map_cons, List.map_nil, List.foldr_cons,
      List.foldr_nil]
    generalize unfolded.map (fun u => u.2.height) = hs
    induction hs with
    | nil => simp
    | cons n hs ih => simp only [List.foldr_cons]; omega

theorem Accounts.complete {frame : Frame ι} (h : Accounts doc contentType frame frame.childIndex)
    (hend : frame.children[frame.childIndex]? = none) :
    ∃ tree, (graph doc).Unfolds (.node frame.value) tree ∧
      sizeOf contentType tree = frame.size ∧ tree.height = frame.maxChildHeight + 1 := by
  obtain ⟨unfolded, hunfolded, hsize, hheight⟩ := h.parts
  have hall : (contents doc frame.value).take frame.childIndex = contents doc frame.value := by
    rw [h.children, values_eq, List.getElem?_eq_none_iff, List.length_map] at hend
    exact List.take_of_length_le hend
  rw [hall] at hunfolded hsize
  refine ⟨.node unfolded, Graph.unfolds_node rfl hunfolded, ?_, ?_⟩
  · rw [sizeOf_node hunfolded, hsize, keysSize_eq]
    rfl
  · rw [Tree.height_node, hheight]
    rfl

end Accounts

end FerrumNexus.Publishing.SpecShape
