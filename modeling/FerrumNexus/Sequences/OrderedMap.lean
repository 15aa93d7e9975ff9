import Mathlib.Tactic

/-!
# Maps that keep the order of insertion

A `Map`: no key twice, and a new key comes last. An entry that is deleted and
set again is the last one.
-/
namespace FerrumNexus.Sequences

/-- `Map`: no key twice, in the order of insertion. -/
structure OrderedMap (K E : Type) where
  entries : List (K × E)
  distinct : (entries.map Prod.fst).Nodup

namespace OrderedMap

variable {K E : Type} [DecidableEq K]

def empty : OrderedMap K E := ⟨[], List.nodup_nil⟩

def size (map : OrderedMap K E) : ℕ := map.entries.length

def get (map : OrderedMap K E) (key : K) : Option E :=
  (map.entries.find? fun entry => entry.1 = key).map Prod.snd

/-- The entries of the other keys. -/
def without (entries : List (K × E)) (key : K) : List (K × E) :=
  entries.filter fun entry => entry.1 ≠ key

theorem key_not_mem_without (entries : List (K × E)) (key : K) :
    key ∉ (without entries key).map Prod.fst := by
  simp [without]

variable {key other : K} {map : OrderedMap K E}

theorem without_of_not_mem {entries : List (K × E)} (h : key ∉ entries.map Prod.fst) :
    without entries key = entries := by
  apply List.filter_eq_self.mpr
  intro entry hentry
  have hne : entry.1 ≠ key := fun heq => h (heq ▸ List.mem_map_of_mem hentry)
  simpa using hne

def delete (map : OrderedMap K E) (key : K) : OrderedMap K E where
  entries := without map.entries key
  distinct := (List.filter_sublist.map Prod.fst).nodup map.distinct

/-- A key that is there keeps its place, a new one is last. -/
def set (map : OrderedMap K E) (key : K) (value : E) : OrderedMap K E where
  entries :=
    if key ∈ map.entries.map Prod.fst then
      map.entries.map fun entry => (entry.1, if entry.1 = key then value else entry.2)
    else map.entries ++ [(key, value)]
  distinct := by
    split
    · have hkeys : (map.entries.map fun entry =>
          (entry.1, if entry.1 = key then value else entry.2)).map Prod.fst =
          map.entries.map Prod.fst := by simp
      rw [hkeys]
      exact map.distinct
    · rename_i hnew
      rw [List.map_append, List.nodup_append]
      refine ⟨map.distinct, by simp, ?_⟩
      intro other hother key' hkey'
      rw [List.map_cons, List.map_nil, List.mem_singleton] at hkey'
      rintro rfl
      rw [hkey'] at hother
      exact hnew hother

@[simp] theorem delete_entries (map : OrderedMap K E) (key : K) :
    (map.delete key).entries = without map.entries key := rfl

theorem get_eq_none :
    map.get key = none ↔ key ∉ map.entries.map Prod.fst := by
  rw [get, Option.map_eq_none_iff, List.find?_eq_none, List.mem_map, not_exists]
  apply forall_congr'
  intro entry
  simp

theorem set_of_new (h : key ∉ map.entries.map Prod.fst) (value : E) :
    (map.set key value).entries = map.entries ++ [(key, value)] := if_neg h

/-- An entry that is deleted and set again is the last one. -/
theorem set_delete_entries (map : OrderedMap K E) (key : K) (value : E) :
    ((map.delete key).set key value).entries = without map.entries key ++ [(key, value)] :=
  set_of_new (key_not_mem_without map.entries key) value

/-- Deleting the oldest key leaves the rest. -/
theorem delete_oldest {entry : K × E} {rest : List (K × E)} (h : map.entries = entry :: rest) :
    (map.delete entry.1).entries = rest := by
  have hdistinct := map.distinct
  rw [h, List.map_cons, List.nodup_cons] at hdistinct
  rw [delete_entries, h, without, List.filter_cons_of_neg (by simp)]
  exact without_of_not_mem hdistinct.1

theorem get_eq_some {value : E} :
    map.get key = some value ↔ (key, value) ∈ map.entries := by
  constructor
  · intro h
    obtain ⟨entry, hfind, rfl⟩ := Option.map_eq_some_iff.mp h
    have hkey : entry.1 = key := by simpa using List.find?_some hfind
    rw [← hkey]
    exact List.mem_of_find?_eq_some hfind
  · intro h
    cases hget : map.get key with
    | none => exact absurd (List.mem_map_of_mem h) (get_eq_none.mp hget)
    | some other =>
      obtain ⟨entry, hfind, rfl⟩ := Option.map_eq_some_iff.mp hget
      have hkey : entry.1 = key := by simpa using List.find?_some hfind
      have hmem := List.mem_of_find?_eq_some hfind
      have hsame := List.inj_on_of_nodup_map map.distinct hmem h hkey
      rw [hsame]

theorem mem_set {value : E} {entry : K × E} :
    entry ∈ (map.set key value).entries ↔
      entry = (key, value) ∨ entry.1 ≠ key ∧ entry ∈ map.entries := by
  by_cases hkey : key ∈ map.entries.map Prod.fst
  · have hentries : (map.set key value).entries = map.entries.map fun entry =>
        (entry.1, if entry.1 = key then value else entry.2) := if_pos hkey
    rw [hentries, List.mem_map]
    constructor
    · rintro ⟨old, hold, rfl⟩
      by_cases hsame : old.1 = key
      · left
        simp [hsame]
      · right
        simp [hsame, hold]
    · rintro (rfl | ⟨hne, hmem⟩)
      · obtain ⟨old, hold, hsame⟩ := List.mem_map.mp hkey
        exact ⟨old, hold, by simp [hsame]⟩
      · exact ⟨entry, hmem, by simp [hne]⟩
  · rw [set_of_new hkey, List.mem_append, List.mem_singleton]
    have hother : entry ∈ map.entries → entry.1 ≠ key := by
      rintro hmem rfl
      exact hkey (List.mem_map_of_mem hmem)
    constructor
    · rintro (hmem | rfl)
      · exact Or.inr ⟨hother hmem, hmem⟩
      · exact Or.inl rfl
    · rintro (rfl | ⟨-, hmem⟩)
      · exact Or.inr rfl
      · exact Or.inl hmem

theorem get_set_self (map : OrderedMap K E) (key : K) (value : E) :
    (map.set key value).get key = some value :=
  get_eq_some.mpr (mem_set.mpr (Or.inl rfl))

theorem get_set_of_ne (map : OrderedMap K E) (value : E) (h : other ≠ key) :
    (map.set key value).get other = map.get other := by
  apply Option.ext
  intro found
  rw [get_eq_some, get_eq_some, mem_set]
  constructor
  · rintro (heq | ⟨-, hmem⟩)
    · exact absurd (congrArg Prod.fst heq) h
    · exact hmem
  · exact fun hmem => Or.inr ⟨h, hmem⟩

theorem get_delete_self (map : OrderedMap K E) (key : K) : (map.delete key).get key = none :=
  get_eq_none.mpr (key_not_mem_without map.entries key)

theorem get_delete_of_ne (map : OrderedMap K E) (h : other ≠ key) :
    (map.delete key).get other = map.get other := by
  apply Option.ext
  intro found
  rw [get_eq_some, get_eq_some, delete_entries, without, List.mem_filter]
  simp [h]

end OrderedMap

end FerrumNexus.Sequences
