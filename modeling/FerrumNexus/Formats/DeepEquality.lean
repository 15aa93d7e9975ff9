import FerrumNexus.Formats.Json

/-!
# Deep equality of JSON values

`isDeepStrictEqual` of two values: the order of an array's items matters, that
of an object's members does not. Two objects are equal exactly if each name has
equal values in both, or none in either.
-/
namespace FerrumNexus.Formats

variable {ν : Type} {members : List (String × Json ν)}

theorem mem_of_member {name : String} {value : Json ν} (h : member members name = some value) :
    (name, value) ∈ members := by
  obtain ⟨entry, hfind, rfl⟩ := Option.map_eq_some_iff.1 h
  have hname : entry.1 = name := by simpa using List.find?_some hfind
  exact hname ▸ List.mem_of_find?_eq_some hfind

theorem member_of_mem (hkeys : (members.map (·.1)).Nodup) {name : String} {value : Json ν}
    (h : (name, value) ∈ members) :
    member members name = some value := by
  have hsome : (members.find? fun entry => entry.1 == name).isSome := by
    rw [List.find?_isSome]
    exact ⟨(name, value), h, beq_self_eq_true name⟩
  obtain ⟨other, hother⟩ := Option.isSome_iff_exists.1 hsome
  have hname : other.1 = name := by simpa using List.find?_some hother
  have hsame := List.inj_on_of_nodup_map hkeys (List.mem_of_find?_eq_some hother) h hname
  rw [member, hother, hsame]
  rfl

variable [DecidableEq ν]

mutual

/-- `isDeepStrictEqual`. -/
def isDeepStrictEqual : Json ν → Json ν → Bool
  | .null, .null => true
  | .bool a, .bool b => a == b
  | .number a, .number b => a == b
  | .string a, .string b => a == b
  | .array xs, .array ys => equalItems xs ys
  | .object ms, .object ns => ms.length == ns.length && equalMembers ms ns
  | _, _ => false

def equalItems : List (Json ν) → List (Json ν) → Bool
  | [], [] => true
  | x :: xs, y :: ys => isDeepStrictEqual x y && equalItems xs ys
  | _, _ => false

/-- Every member of the first object is one of the second. -/
def equalMembers : List (String × Json ν) → List (String × Json ν) → Bool
  | [], _ => true
  | (name, value) :: ms, ns =>
    (match member ns name with
      | some other => isDeepStrictEqual value other
      | none => false) && equalMembers ms ns

end

/-- Equality of what two objects have under one name, where either may have
nothing. -/
def equalAt : Option (Json ν) → Option (Json ν) → Bool
  | none, none => true
  | some a, some b => isDeepStrictEqual a b
  | _, _ => false

variable {ms ns : List (String × Json ν)}

theorem equalMembers_iff :
    equalMembers ms ns = true ↔
      ∀ entry ∈ ms, equalAt (some entry.2) (member ns entry.1) = true := by
  induction ms with
  | nil => simp [equalMembers]
  | cons entry ms ih =>
    obtain ⟨name, value⟩ := entry
    have hfirst : equalMembers ((name, value) :: ms) ns =
        (equalAt (some value) (member ns name) && equalMembers ms ns) := by
      rw [equalMembers]
      cases member ns name <;> rfl
    rw [hfirst, Bool.and_eq_true, ih]
    simp

mutual

theorem isDeepStrictEqual_refl : ∀ value : Json ν, value.Keyed → isDeepStrictEqual value value = true
  | .null, _ => rfl
  | .bool _, _ => beq_self_eq_true _
  | .number _, _ => beq_self_eq_true _
  | .string _, _ => beq_self_eq_true _
  | .array items, h => by
    rw [Json.Keyed] at h
    rw [isDeepStrictEqual]
    exact equalItems_refl items h
  | .object members, h => by
    rw [Json.Keyed] at h
    rw [isDeepStrictEqual, beq_self_eq_true, Bool.true_and, equalMembers_iff]
    intro entry hentry
    rw [member_of_mem h.1 hentry]
    exact equal_of_mem members h.2 entry hentry

theorem equalItems_refl : ∀ items : List (Json ν), KeyedItems items → equalItems items items = true
  | [], _ => rfl
  | item :: items, h => by
    rw [KeyedItems] at h
    rw [equalItems, isDeepStrictEqual_refl item h.1, equalItems_refl items h.2]
    rfl

theorem equal_of_mem : ∀ members : List (String × Json ν), KeyedMembers members →
    ∀ entry ∈ members, isDeepStrictEqual entry.2 entry.2 = true
  | [], _, _, h => absurd h List.not_mem_nil
  | (_, value) :: members, hkeyed, entry, h => by
    rw [KeyedMembers] at hkeyed
    rcases List.mem_cons.1 h with rfl | h
    · exact isDeepStrictEqual_refl value hkeyed.1
    · exact equal_of_mem members hkeyed.2 entry h

end

/-- Two objects are equal exactly if they are equal under every name. -/
theorem isDeepStrictEqual_object (hms : (ms.map (·.1)).Nodup) (hns : (ns.map (·.1)).Nodup) :
    isDeepStrictEqual (.object ms) (.object ns) = true ↔
      ∀ name, equalAt (member ms name) (member ns name) = true := by
  rw [isDeepStrictEqual, Bool.and_eq_true, beq_iff_eq, equalMembers_iff]
  have hsub : (∀ entry ∈ ms, equalAt (some entry.2) (member ns entry.1) = true) →
      ms.map (·.1) ⊆ ns.map (·.1) := by
    intro h name hname
    obtain ⟨entry, hentry, rfl⟩ := List.mem_map.1 hname
    have hequal := h entry hentry
    cases hother : member ns entry.1 with
    | none => simp [hother, equalAt] at hequal
    | some other => exact List.mem_map.2 ⟨_, mem_of_member hother, rfl⟩
  constructor
  · rintro ⟨hlength, hequal⟩ name
    -- as many names, and each of the first is one of the second
    have hperm : (ms.map (·.1)).Perm (ns.map (·.1)) := by
      apply (List.subperm_of_subset hms (hsub hequal)).perm_of_length_le
      simp [hlength]
    cases hvalue : member ms name with
    | some value =>
      exact hequal (name, value) (mem_of_member hvalue)
    | none =>
      cases hother : member ns name with
      | none => rfl
      | some other =>
        have hname : name ∈ ms.map (·.1) :=
          hperm.mem_iff.2 (List.mem_map.2 ⟨_, mem_of_member hother, rfl⟩)
        obtain ⟨entry, hentry, rfl⟩ := List.mem_map.1 hname
        rw [member_of_mem hms hentry] at hvalue
        cases hvalue
  · intro h
    have hequal : ∀ entry ∈ ms, equalAt (some entry.2) (member ns entry.1) = true := by
      intro entry hentry
      have := h entry.1
      rwa [member_of_mem hms hentry] at this
    have hback : ns.map (·.1) ⊆ ms.map (·.1) := by
      intro name hname
      obtain ⟨entry, hentry, rfl⟩ := List.mem_map.1 hname
      have hat := h entry.1
      rw [member_of_mem hns hentry] at hat
      cases hother : member ms entry.1 with
      | none => simp [hother, equalAt] at hat
      | some other => exact List.mem_map.2 ⟨_, mem_of_member hother, rfl⟩
    refine ⟨?_, hequal⟩
    have hle := (List.subperm_of_subset hms (hsub hequal)).length_le
    have hge := (List.subperm_of_subset hns hback).length_le
    simp only [List.length_map] at hle hge
    omega

theorem equalAt_refl {value : Option (Json ν)} (h : ∀ v, value = some v → v.Keyed) :
    equalAt value value = true := by
  cases value with
  | none => rfl
  | some value => exact isDeepStrictEqual_refl value (h value rfl)

end FerrumNexus.Formats
