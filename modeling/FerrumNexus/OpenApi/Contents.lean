import FerrumNexus.Formats.DeepEquality
import FerrumNexus.Graphs.Unfolding
import FerrumNexus.OpenApi.Documents

/-!
# What the values of a document say

The JSON value a value of a document stands for: every node is written out at
each place that names it. No path through a document without cycles is longer
than the document has nodes, so as many levels are enough to write out any of
its values.
-/
namespace FerrumNexus.OpenApi

open Formats

variable {ι : Type}

/-- A value written out, at most `n` levels deep. -/
def Document.expand (doc : Document ι) : ℕ → Value ι → Option (Json String)
  | _, .null => some .null
  | _, .bool b => some (.bool b)
  | _, .number text => some (.number text)
  | _, .string s => some (.string s)
  | 0, .node _ => none
  | n + 1, .node id =>
    match doc.nodes id with
    | .array items => (items.mapM (doc.expand n)).map .array
    | .record members =>
      (members.entries.mapM fun entry => (doc.expand n entry.2).map (Prod.mk entry.1)).map .object

/-- What a value says, in a document without cycles. -/
def Document.content [Fintype ι] (doc : Document ι) (value : Value ι) : Json String :=
  (doc.expand (Fintype.card ι) value).getD .null

/-- What the members of an object say. -/
def Document.contents [Fintype ι] (doc : Document ι) (id : ι) : List (String × Json String) :=
  (doc.members id).entries.map fun entry => (entry.1, doc.content entry.2)

/-! ## No member is named twice -/

theorem keyedItems_of_forall {items : List (Json String)} (h : ∀ item ∈ items, item.Keyed) :
    KeyedItems items := by
  induction items with
  | nil => simp [KeyedItems]
  | cons item items ih =>
    rw [KeyedItems]
    exact ⟨h item List.mem_cons_self, ih fun other hother => h other (List.mem_cons_of_mem _ hother)⟩

theorem keyedMembers_of_forall {members : List (String × Json String)}
    (h : ∀ entry ∈ members, entry.2.Keyed) : KeyedMembers members := by
  induction members with
  | nil => simp [KeyedMembers]
  | cons entry members ih =>
    rw [KeyedMembers]
    exact ⟨h entry List.mem_cons_self, ih fun other hother => h other (List.mem_cons_of_mem _ hother)⟩

theorem Document.expand_keyed {doc : Document ι} {n : ℕ} {value : Value ι} {json : Json String}
    (h : doc.expand n value = some json) : json.Keyed := by
  induction n generalizing value json with
  | zero =>
    cases value with
    | node id => simp [expand] at h
    | _ =>
      simp only [expand, Option.some.injEq] at h
      subst h
      simp [Json.Keyed]
  | succ n ih =>
    cases value with
    | node id =>
      rw [expand] at h
      cases hnode : doc.nodes id with
      | array items =>
        simp only [hnode, Option.map_eq_some_iff] at h
        obtain ⟨expanded, hexpanded, rfl⟩ := h
        rw [Json.Keyed]
        apply keyedItems_of_forall
        intro item hitem
        obtain ⟨i, hi, rfl⟩ := List.getElem_of_mem hitem
        have hall := Graphs.Graph.forall₂_of_mapM.1 hexpanded
        exact ih (hall.get (hall.length_eq ▸ hi) hi)
      | record members =>
        simp only [hnode, Option.map_eq_some_iff] at h
        obtain ⟨expanded, hexpanded, rfl⟩ := h
        have hall := Graphs.Graph.forall₂_of_mapM.1 hexpanded
        have hnames : expanded.map (·.1) = members.entries.map Prod.fst := by
          apply List.ext_getElem
          · simp [hall.length_eq]
          · intro i hi hi'
            simp only [List.length_map] at hi hi'
            obtain ⟨json, -, hentry⟩ := Option.map_eq_some_iff.1 (hall.get hi' hi)
            simp only [List.get_eq_getElem] at hentry
            simp [← hentry]
        rw [Json.Keyed, hnames]
        refine ⟨members.distinct, keyedMembers_of_forall ?_⟩
        intro entry hentry
        obtain ⟨i, hi, rfl⟩ := List.getElem_of_mem hentry
        have hat := hall.get (hall.length_eq ▸ hi) hi
        obtain ⟨json, hjson, hentry⟩ := Option.map_eq_some_iff.1 hat
        simp only [List.get_eq_getElem] at hentry
        rw [← hentry]
        exact ih hjson
    | _ =>
      simp only [expand, Option.some.injEq] at h
      subst h
      simp [Json.Keyed]

variable [Fintype ι] (doc : Document ι)

theorem Document.content_keyed (value : Value ι) : (doc.content value).Keyed := by
  rw [content]
  cases hexpand : doc.expand (Fintype.card ι) value with
  | none => simp [Json.Keyed]
  | some json => exact expand_keyed hexpand

theorem Document.contents_names (id : ι) :
    (doc.contents id).map (·.1) = (doc.members id).entries.map Prod.fst := by
  simp [contents]

theorem member_contents (id : ι) (name : String) :
    member (doc.contents id) name = (doc.own id name).map doc.content := by
  simp only [member, Document.contents, Document.own, Members.get, List.find?_map, Option.map_map]
  rfl

end FerrumNexus.OpenApi
