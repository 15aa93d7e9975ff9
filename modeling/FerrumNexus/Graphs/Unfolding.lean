import Mathlib

/-!
# Shared graphs and the trees they unfold to

A value of a graph is a leaf or names a node, and a node has labelled members.
Unfolding writes every node out again at each place that names it. A node
unfolds exactly when no cycle can be reached from it. What is summed over the
tree can be summed over the graph with one entry for each node, whenever a sum
taken at one depth tells the sum at every other.
-/
namespace FerrumNexus.Graphs

inductive Tree (κ β : Type)
  | leaf (value : β)
  | node (members : List (κ × Tree κ β))

variable {κ β ι : Type}

namespace Tree

mutual

/-- What holds of the leaves, and of a node when it holds of its members, holds
of every tree. -/
theorem of_members {P : Tree κ β → Prop} (hleaf : ∀ value, P (.leaf value))
    (hnode : ∀ members, (∀ member ∈ members, P member.2) → P (.node members)) : ∀ tree, P tree
  | .leaf value => hleaf value
  | .node members => hnode members (of_members_list hleaf hnode members)

theorem of_members_list {P : Tree κ β → Prop} (hleaf : ∀ value, P (.leaf value))
    (hnode : ∀ members, (∀ member ∈ members, P member.2) → P (.node members)) :
    ∀ members : List (κ × Tree κ β), ∀ member ∈ members, P member.2
  | [], _, h => absurd h List.not_mem_nil
  | (_, tree) :: rest, member, h =>
    (List.mem_cons.mp h).elim (fun heq => heq ▸ of_members hleaf hnode tree)
      (of_members_list hleaf hnode rest member)

end

/-- The leaf a member is, `none` for a node. -/
def leaf? : Tree κ β → Option β
  | .leaf value => some value
  | .node _ => none

/-! ## Folds -/

section Folds

variable {M : Type} [AddCommMonoid M]

mutual

/-- The sum over all members, each weighed by its label and by the leaf it is.
What a member's own members add up to is taken one level `deeper`. -/
def sum (weight : κ → Option β → M) (deeper : M → M) : Tree κ β → M
  | .leaf _ => 0
  | .node members => sumMembers weight deeper members

def sumMembers (weight : κ → Option β → M) (deeper : M → M) : List (κ × Tree κ β) → M
  | [] => 0
  | (key, tree) :: rest =>
    weight key tree.leaf? + deeper (tree.sum weight deeper) + sumMembers weight deeper rest

end

mutual

/-- The sum over all members of a cost that depends on the level they are at. -/
def cost (price : ℕ → κ → Option β → ℕ) : ℕ → Tree κ β → ℕ
  | _, .leaf _ => 0
  | depth, .node members => costMembers price depth members

def costMembers (price : ℕ → κ → Option β → ℕ) : ℕ → List (κ × Tree κ β) → ℕ
  | _, [] => 0
  | depth, (key, tree) :: rest =>
    price depth key tree.leaf? + tree.cost price (depth + 1) + costMembers price depth rest

end

mutual

/-- The levels of nodes. -/
def height : Tree κ β → ℕ
  | .leaf _ => 0
  | .node members => heightMembers members + 1

def heightMembers : List (κ × Tree κ β) → ℕ
  | [] => 0
  | (_, tree) :: rest => max tree.height (heightMembers rest)

end

variable {weight : κ → Option β → M} {deeper : M → M}

@[simp] theorem sum_leaf (value : β) : (leaf value : Tree κ β).sum weight deeper = 0 := by
  simp [sum]

theorem sum_node (members : List (κ × Tree κ β)) :
    (node members).sum weight deeper =
      (members.map fun m => weight m.1 m.2.leaf? + deeper (m.2.sum weight deeper)).sum := by
  rw [sum]
  induction members with
  | nil => simp [sumMembers]
  | cons member rest ih => simp [sumMembers, ih]

theorem cost_node (price : ℕ → κ → Option β → ℕ) (depth : ℕ) (members : List (κ × Tree κ β)) :
    (node members).cost price depth =
      (members.map fun m => price depth m.1 m.2.leaf? + m.2.cost price (depth + 1)).sum := by
  rw [cost]
  induction members with
  | nil => simp [costMembers]
  | cons member rest ih => simp [costMembers, ih]

@[simp] theorem height_leaf (value : β) : (leaf value : Tree κ β).height = 0 := by
  simp [height]

theorem height_node (members : List (κ × Tree κ β)) :
    (node members).height = (members.map fun m => m.2.height).foldr max 0 + 1 := by
  rw [height]
  induction members with
  | nil => simp [heightMembers]
  | cons member rest ih => simp only [heightMembers, List.map_cons, List.foldr_cons]; omega

/-- A sum taken once at each node gives the cost of the whole tree at any depth
from `base` on, where a price at a depth can be read off the weight. -/
theorem cost_eq_sum {price : ℕ → κ → Option β → ℕ} {atDepth : ℕ → M →+ ℕ} {base : ℕ}
    (hprice : ∀ depth ≥ base, ∀ key leaf, atDepth depth (weight key leaf) = price depth key leaf)
    (hdeeper : ∀ depth ≥ base, ∀ m, atDepth depth (deeper m) = atDepth (depth + 1) m)
    (tree : Tree κ β) {depth : ℕ} (hdepth : base ≤ depth) :
    tree.cost price depth = atDepth depth (tree.sum weight deeper) := by
  induction tree using of_members generalizing depth with
  | hleaf value => simp [cost]
  | hnode members ih =>
    rw [cost_node, sum_node, map_list_sum, List.map_map]
    congr 1
    apply List.map_congr_left
    intro member hmember
    have hnext : base ≤ depth + 1 := by omega
    simp only [Function.comp_apply, map_add, hprice depth hdepth, hdeeper depth hdepth,
      ih member hmember hnext]

end Folds

end Tree

/-- A graph of values: `target` is the node a value names, `none` for a leaf. -/
structure Graph (ι κ β : Type) where
  target : β → Option ι
  members : ι → List (κ × β)

namespace Graph

variable (graph : Graph ι κ β)

/-- Every node written out at each place that names it, at most `n` levels deep. -/
def unfold : ℕ → β → Option (Tree κ β)
  | 0, value =>
    match graph.target value with
    | none => some (.leaf value)
    | some _ => none
  | n + 1, value =>
    match graph.target value with
    | none => some (.leaf value)
    | some id => ((graph.members id).mapM fun member =>
        (unfold n member.2).map (Prod.mk member.1)).map .node

/-- The tree a value unfolds to. -/
def Unfolds (value : β) (tree : Tree κ β) : Prop := ∃ n, graph.unfold n value = some tree

/-- A member and the tree it unfolds to, under its label. -/
def UnfoldsMember (member : κ × β) (unfolded : κ × Tree κ β) : Prop :=
  unfolded.1 = member.1 ∧ graph.Unfolds member.2 unfolded.2

def Child (child parent : ι) : Prop :=
  ∃ member ∈ graph.members parent, graph.target member.2 = some child

def Reaches (id other : ι) : Prop := Relation.ReflTransGen (fun a b => graph.Child b a) id other

/-- No node reached from `value` is a proper descendant of itself. -/
def Acyclic (value : β) : Prop :=
  ∀ root, graph.target value = some root → ∀ id, graph.Reaches root id →
    ¬ Relation.TransGen graph.Child id id

variable {graph}

/-! ## Unfolding -/

variable {value : β} {unfolded : List (κ × Tree κ β)} {tree : Tree κ β}

theorem unfold_leaf (h : graph.target value = none) (n : ℕ) :
    graph.unfold n value = some (.leaf value) := by
  cases n <;> simp [unfold, h]

theorem unfold_node {id : ι} (h : graph.target value = some id) (n : ℕ) :
    graph.unfold (n + 1) value = ((graph.members id).mapM fun member =>
      (graph.unfold n member.2).map (Prod.mk member.1)).map .node := by
  simp [unfold, h]

theorem forall₂_of_mapM {α γ : Type} {f : α → Option γ} {xs : List α} {ys : List γ} :
    xs.mapM f = some ys ↔ List.Forall₂ (fun x y => f x = some y) xs ys := by
  induction xs generalizing ys with
  | nil =>
    constructor
    · intro h
      obtain rfl : [] = ys := by simpa using h
      exact .nil
    · intro h
      cases h
      simp
  | cons x xs ih =>
    simp only [List.mapM_cons, Option.bind_eq_bind, Option.bind_eq_some_iff, Option.pure_def,
      Option.some.injEq, ih]
    constructor
    · rintro ⟨y, hy, rest, hrest, rfl⟩
      exact .cons hy hrest
    · intro h
      cases h with
      | cons hy hrest => exact ⟨_, hy, _, hrest, rfl⟩

theorem forall₂_unfold_iff {n : ℕ} {members : List (κ × β)} :
    (members.mapM fun m => (graph.unfold n m.2).map (Prod.mk m.1)) = some unfolded ↔
      List.Forall₂ (fun m u => u.1 = m.1 ∧ graph.unfold n m.2 = some u.2) members unfolded := by
  rw [forall₂_of_mapM]
  have hpair (m : κ × β) (u : κ × Tree κ β) :
      (graph.unfold n m.2).map (Prod.mk m.1) = some u ↔
        u.1 = m.1 ∧ graph.unfold n m.2 = some u.2 := by
    rw [Option.map_eq_some_iff]
    constructor
    · rintro ⟨tree, htree, rfl⟩
      exact ⟨rfl, htree⟩
    · rintro ⟨hkey, htree⟩
      exact ⟨u.2, htree, by rw [← hkey]⟩
  simp only [hpair]

/-- Deeper unfolding changes nothing. -/
theorem unfold_succ {n : ℕ} (h : graph.unfold n value = some tree) :
    graph.unfold (n + 1) value = some tree := by
  induction n generalizing value tree with
  | zero =>
    cases htarget : graph.target value with
    | none => rw [unfold_leaf htarget] at h ⊢; exact h
    | some id => simp [unfold, htarget] at h
  | succ n ih =>
    cases htarget : graph.target value with
    | none => rw [unfold_leaf htarget] at h ⊢; exact h
    | some id =>
      rw [unfold_node htarget, Option.map_eq_some_iff] at h ⊢
      obtain ⟨members, hmembers, rfl⟩ := h
      rw [forall₂_unfold_iff] at hmembers
      refine ⟨members, forall₂_unfold_iff.mpr ?_, rfl⟩
      exact hmembers.imp fun _ _ hm => ⟨hm.1, ih hm.2⟩

theorem unfold_le {n m : ℕ} (hle : n ≤ m) (h : graph.unfold n value = some tree) :
    graph.unfold m value = some tree := by
  induction hle with
  | refl => exact h
  | step _ ih => exact unfold_succ ih

theorem Unfolds.unique {other : Tree κ β} (h : graph.Unfolds value tree)
    (hother : graph.Unfolds value other) : tree = other := by
  obtain ⟨n, hn⟩ := h
  obtain ⟨m, hm⟩ := hother
  have hleft := unfold_le (Nat.le_max_left n m) hn
  have hright := unfold_le (Nat.le_max_right n m) hm
  exact Option.some.inj (hleft.symm.trans hright)

theorem unfolds_leaf (h : graph.target value = none) :
    graph.Unfolds value (.leaf value) := ⟨0, unfold_leaf h 0⟩

/-- One depth that unfolds all the members of a list. -/
theorem exists_unfold_members {members : List (κ × β)}
    (h : List.Forall₂ graph.UnfoldsMember members unfolded) :
    ∃ n, List.Forall₂ (fun m u => u.1 = m.1 ∧ graph.unfold n m.2 = some u.2) members unfolded := by
  induction h with
  | nil => exact ⟨0, .nil⟩
  | cons hmember _ ih =>
    obtain ⟨hkey, n, hn⟩ := hmember
    obtain ⟨m, hm⟩ := ih
    refine ⟨max n m, .cons ⟨hkey, unfold_le (Nat.le_max_left n m) hn⟩ ?_⟩
    exact hm.imp fun _ _ hu => ⟨hu.1, unfold_le (Nat.le_max_right n m) hu.2⟩

theorem unfolds_node {id : ι} (htarget : graph.target value = some id)
    (h : List.Forall₂ graph.UnfoldsMember (graph.members id) unfolded) :
    graph.Unfolds value (.node unfolded) := by
  obtain ⟨n, hn⟩ := exists_unfold_members h
  refine ⟨n + 1, ?_⟩
  rw [unfold_node htarget, forall₂_unfold_iff.mpr hn]
  rfl

theorem Unfolds.members {id : ι} (h : graph.Unfolds value tree)
    (htarget : graph.target value = some id) :
    ∃ unfolded, tree = .node unfolded ∧
      List.Forall₂ graph.UnfoldsMember (graph.members id) unfolded := by
  obtain ⟨n, hn⟩ := h
  have hnext := unfold_succ hn
  rw [unfold_node htarget, Option.map_eq_some_iff] at hnext
  obtain ⟨unfolded, hunfolded, rfl⟩ := hnext
  rw [forall₂_unfold_iff] at hunfolded
  exact ⟨unfolded, rfl, hunfolded.imp fun _ _ hu => ⟨hu.1, n, hu.2⟩⟩

theorem Unfolds.leaf (h : graph.Unfolds value tree) (htarget : graph.target value = none) :
    tree = .leaf value :=
  h.unique (unfolds_leaf htarget)

/-- The members of a list unfold in one way. -/
theorem forall₂_unique {members : List (κ × β)} {other : List (κ × Tree κ β)}
    (h : List.Forall₂ graph.UnfoldsMember members unfolded)
    (hother : List.Forall₂ graph.UnfoldsMember members other) : unfolded = other := by
  induction h generalizing other with
  | nil => cases hother; rfl
  | @cons member tree members unfolded hmember _ ih =>
    cases hother with
    | @cons _ tree' _ _ hmember' hrest =>
      rw [ih hrest, Prod.ext (hmember.1.trans hmember'.1.symm) (hmember.2.unique hmember'.2)]

/-! ## Cycles -/

/-- What unfolds is well founded. -/
theorem Unfolds.acc {id : ι} (h : graph.Unfolds value tree)
    (htarget : graph.target value = some id) : Acc graph.Child id := by
  obtain ⟨n, hn⟩ := h
  induction n generalizing value id tree with
  | zero => simp [unfold, htarget] at hn
  | succ n ih =>
    rw [unfold_node htarget, Option.map_eq_some_iff] at hn
    obtain ⟨unfolded, hunfolded, -⟩ := hn
    rw [forall₂_unfold_iff] at hunfolded
    constructor
    rintro child ⟨member, hmember, hchild⟩
    obtain ⟨i, hi, rfl⟩ := List.getElem_of_mem hmember
    have hget := (List.forall₂_iff_get.mp hunfolded).2 i hi
      ((List.Forall₂.length_eq hunfolded) ▸ hi)
    exact ih hchild hget.2

theorem exists_unfolds_of_acc {id : ι} (hacc : Acc graph.Child id)
    (htarget : graph.target value = some id) : ∃ tree, graph.Unfolds value tree := by
  induction hacc generalizing value with
  | intro id _ ih =>
    have hall : ∀ member ∈ graph.members id, ∃ u, graph.UnfoldsMember member u := by
      intro member hmember
      cases hchild : graph.target member.2 with
      | none => exact ⟨(member.1, .leaf member.2), rfl, unfolds_leaf hchild⟩
      | some child =>
        obtain ⟨tree, htree⟩ := ih child ⟨member, hmember, hchild⟩ hchild
        exact ⟨(member.1, tree), rfl, htree⟩
    have hlist : ∀ members : List (κ × β), (∀ member ∈ members, ∃ u, graph.UnfoldsMember member u) →
        ∃ unfolded, List.Forall₂ graph.UnfoldsMember members unfolded := by
      intro members hmembers
      induction members with
      | nil => exact ⟨[], .nil⟩
      | cons member rest ihrest =>
        obtain ⟨u, hu⟩ := hmembers member List.mem_cons_self
        obtain ⟨unfolded, hunfolded⟩ :=
          ihrest fun m hm => hmembers m (List.mem_cons_of_mem _ hm)
        exact ⟨u :: unfolded, .cons hu hunfolded⟩
    obtain ⟨unfolded, hunfolded⟩ := hlist _ hall
    exact ⟨.node unfolded, unfolds_node htarget hunfolded⟩

theorem acc_of_reaches {root id : ι} (hacc : Acc graph.Child root) (h : graph.Reaches root id) :
    Acc graph.Child id := by
  induction h with
  | refl => exact hacc
  | tail _ hstep ih => exact ih.inv hstep

theorem acyclic_of_unfolds (h : graph.Unfolds value tree) :
    graph.Acyclic value := by
  intro root hroot id hreach hcycle
  have hacc := (acc_of_reaches (h.acc hroot) hreach).transGen
  induction hacc with
  | intro id _ ih => exact ih id hcycle hreach hcycle

/-- In a finite graph only a cycle keeps a value from unfolding. -/
theorem exists_unfolds_of_acyclic [Finite ι] (h : graph.Acyclic value) :
    ∃ tree, graph.Unfolds value tree := by
  cases hroot : graph.target value with
  | none => exact ⟨.leaf value, unfolds_leaf hroot⟩
  | some root =>
    -- descending among the nodes reached is irreflexive, so well founded
    let below (a b : ι) : Prop := graph.Reaches root b ∧ Relation.TransGen graph.Child a b
    have hreach {a b : ι} (hb : graph.Reaches root b) (hab : Relation.TransGen graph.Child a b) :
        graph.Reaches root a := by
      induction hab using Relation.TransGen.head_induction_on with
      | single hchild => exact hb.tail hchild
      | head hchild _ ih => exact ih.tail hchild
    have htrans : IsTrans ι below :=
      ⟨fun a b c hab hbc => ⟨hbc.1, hab.2.trans hbc.2⟩⟩
    have hirrefl : Std.Irrefl below := ⟨fun a haa => h root hroot a haa.1 haa.2⟩
    have hwf : WellFounded below := Finite.wellFounded_of_trans_of_irrefl below
    have hacc : ∀ id, graph.Reaches root id → Acc graph.Child id := by
      intro id
      induction id using hwf.induction with
      | h id ih =>
        intro hid
        constructor
        intro child hchild
        exact ih child ⟨hid, .single hchild⟩ (hid.tail hchild)
    exact exists_unfolds_of_acc (hacc root .refl) hroot

end Graph

end FerrumNexus.Graphs
