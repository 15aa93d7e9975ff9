import FerrumNexus.Publishing.Destinations
import FerrumNexus.Network.Respelling

/-!
# What the address parser reads

`ipv6Hextets` reads the eight groups of the address a spelling names: it lowers
the letters, drops the zone index, writes a dotted quad at the end as two groups
and fills the compression.
-/
namespace FerrumNexus.Publishing.Destinations

open Network

/-! ## The dotted quad at the end -/

/-- Cutting behind the last colon. -/
theorem cut_last_colon {lead tail : Text} (hlead : lead = [] ∨ ∃ more, lead = more ++ [':'])
    (htail : ':' ∉ tail) :
    ((lead ++ tail).reverse.takeWhile (· ≠ ':')).reverse = tail ∧
      ((lead ++ tail).reverse.dropWhile (· ≠ ':')).reverse = lead := by
  have hall : ∀ c ∈ tail.reverse, (c ≠ ':' : Bool) = true := by
    intro c hc
    simpa using fun h : c = ':' => htail (h ▸ List.mem_reverse.1 hc)
  rw [List.reverse_append, List.takeWhile_append_of_pos hall, List.dropWhile_append_of_pos hall]
  rcases hlead with rfl | ⟨more, rfl⟩ <;> simp

theorem octets_of_quad (q : IPv4) :
    (Nat.toDigits 16 (number (Nat.toDigits 10 q.a) <<< 8 ||| number (Nat.toDigits 10 q.b)) =
        Nat.toDigits 16 (q.a * 256 + q.b)) ∧
      Nat.toDigits 16 (number (Nat.toDigits 10 q.c) <<< 8 ||| number (Nat.toDigits 10 q.d)) =
        Nat.toDigits 16 (q.c * 256 + q.d) := by
  have h (x y : Fin 256) : (x : ℕ) <<< 8 ||| (y : ℕ) = x * 256 + y := by
    rw [← Nat.shiftLeft_add_eq_or_of_lt (by omega), Nat.shiftLeft_eq]
  simp only [number, Nat.ofDigitChars_ten_toDigits, h, and_self]

/-- A dotted quad behind its last colon becomes two groups. -/
theorem undotted_quad {lead : Text} (hlead : lead = [] ∨ ∃ more, lead = more ++ [':'])
    (q : IPv4) : undotted (lead ++ q.text) =
      some (lead ++ join ':' (q.hextets.map Subtype.val)) := by
  obtain ⟨htail, hcut⟩ := cut_last_colon hlead (q.not_mem_text (by decide) (by decide))
  simp only [undotted, htail, hcut, q.dot_mem_text, isIP_v4, if_true, if_false, q.splitOn_text,
    ne_eq, not_true_eq_false, List.getD_cons_zero, List.getD_cons_succ, octets_of_quad]
  simp [IPv4.hextets, Hextet.ofNat, join_cons_cons]

theorem undotted_plain {text : Text} (h : '.' ∉ text) : undotted text = some text := by
  have htail : '.' ∉ (text.reverse.takeWhile (· ≠ ':')).reverse := by
    intro hc
    exact h (List.mem_reverse.1 ((List.takeWhile_sublist _).mem (List.mem_reverse.1 hc)))
  simp only [undotted, if_neg htail]

namespace Spelled

open Spelling

/-- The groups of a run, a colon behind each. -/
def lead (groups : List Hextet) : Text := groups.flatMap fun g => g.val ++ [':']

theorem lead_ends (groups : List Hextet) : lead groups = [] ∨ ∃ more, lead groups = more ++ [':'] := by
  induction groups using List.reverseRecOn with
  | nil => exact .inl rfl
  | append_singleton groups g _ =>
    exact .inr ⟨lead groups ++ g.val, by simp [lead]⟩

theorem join_quad (groups : List Hextet) (q : IPv4) :
    join ':' (pieces groups (some q)) = lead groups ++ q.text := by
  have h : pieces groups (some q) = groups.map Subtype.val ++ [q.text] := rfl
  rw [h, join_concat, lead, List.flatMap_map]

theorem join_spellOut (groups : List Hextet) (q : IPv4) :
    join ':' (pieces (spellOut groups (some q)) none) =
      lead groups ++ join ':' (q.hextets.map Subtype.val) := by
  have h : pieces (spellOut groups (some q)) none =
      (groups.map Subtype.val ++ [(Hextet.ofNat (q.a * 256 + q.b) (by omega)).val]) ++
        [(Hextet.ofNat (q.c * 256 + q.d) (by omega)).val] := by
    simp [pieces, spellOut, IPv4.hextets]
  rw [h, join_concat]
  simp [lead, IPv4.hextets, join_cons_cons]

theorem dot_not_mem (groups : List Hextet) : '.' ∉ join ':' (pieces groups none) := by
  intro h
  rcases mem_join h with h | ⟨p, hp, hc⟩
  · simp at h
  · simp only [pieces, Option.toList_none, List.map_nil, List.append_nil, List.mem_map] at hp
    obtain ⟨g, -, rfl⟩ := hp
    exact (Hextet.not_mem g).2.1 hc

theorem undotted_body (s : Spelling) : Destinations.undotted s.body = some s.undotted.body := by
  cases hq : s.quad with
  | none =>
    have hsame : s.undotted.body = s.body := by
      cases h : s.rest <;> simp [body, Spelling.undotted, h, hq, spellOut]
    rw [hsame]
    apply undotted_plain
    cases h : s.rest with
    | none => rw [body_none h, hq]; exact dot_not_mem _
    | some rest => rw [body_some h, hq]; simp [dot_not_mem]
  | some q =>
    cases h : s.rest with
    | none =>
      rw [body_none h, hq, join_quad, undotted_quad (lead_ends _),
        body_none (s := s.undotted) (by simp [Spelling.undotted, h])]
      simp only [Spelling.undotted, h, hq, if_true, join_spellOut]
    | some rest =>
      have hends : ∃ more, join ':' (pieces s.head none) ++ ':' :: ':' :: lead rest =
          more ++ [':'] := by
        rcases lead_ends rest with hr | ⟨more, hr⟩
        · exact ⟨join ':' (pieces s.head none) ++ [':'], by simp [hr]⟩
        · exact ⟨join ':' (pieces s.head none) ++ ':' :: ':' :: more, by simp [hr]⟩
      have hbody : s.body = join ':' (pieces s.head none) ++ ':' :: ':' :: lead rest ++ q.text := by
        rw [body_some h, hq, join_quad]
        simp
      rw [hbody, undotted_quad (.inr hends), body_some (show
        s.undotted.rest = some (spellOut rest (some q)) by simp [Spelling.undotted, h, hq])]
      simp [Spelling.undotted, h, join_spellOut]

/-! ## The groups -/

/-- Groups without an upper-case letter. -/
def IsLower (groups : List Hextet) : Prop := ∀ g ∈ groups, lower g.val = g.val

theorem isLower_lowered (groups : List Hextet) : IsLower (groups.map Hextet.lowered) := by
  intro g hg
  obtain ⟨g, -, rfl⟩ := List.mem_map.1 hg
  exact lower_idem g.val

theorem isLower_spellOut {groups : List Hextet} (h : IsLower groups) (quad : Option IPv4) :
    IsLower (spellOut groups quad) := by
  intro g hg
  cases quad with
  | none => exact h g (by simpa [spellOut] using hg)
  | some q =>
    simp only [spellOut, IPv4.hextets, Option.toList_some, List.flatMap_cons, List.flatMap_nil,
      List.append_nil, List.mem_append, List.mem_cons, List.not_mem_nil, or_false] at hg
    rcases hg with hg | rfl | rfl
    · exact h g hg
    · exact Hextet.lower_ofNat _ _
    · exact Hextet.lower_ofNat _ _

theorem ipv6Group {g : Hextet} (h : lower g.val = g.val) : IPV6_GROUP g.val = true := by
  have hlower : ∀ c ∈ hexDigits, c.toLower = c → c ∈ "0123456789abcdef".toList :=
    List.forall_iff_forall_mem.1 (by decide)
  have hsame : ∀ c ∈ g.val, c.toLower = c := by
    have hmap : g.val.map Char.toLower = g.val.map id := by simpa [lower] using h
    exact fun c hc => List.map_inj_left.1 hmap c hc
  have hg := g.property
  simp only [isHextet, IPV6_GROUP, Bool.and_eq_true, List.all_eq_true] at hg ⊢
  refine ⟨hg.1, fun c hc => ?_⟩
  simpa using hlower c (g.digits c hc) (hsame c hc)

theorem parseHextets_run {groups : List Hextet} (h : IsLower groups) :
    parseHextets (join ':' (pieces groups none)) = some (values groups none) := by
  have hrun := run_join groups none
  unfold run at hrun
  unfold parseHextets
  split_ifs at hrun ⊢ with hnil
  · have hlen := congrArg List.length hrun
    rw [pieces_length] at hlen
    have : groups = [] := List.eq_nil_of_length_eq_zero (by simp at hlen; omega)
    simp [this, values]
  · have hall : (pieces groups none).all IPV6_GROUP = true := by
      simp only [pieces, Option.toList_none, List.map_nil, List.append_nil, List.all_map,
        List.all_eq_true]
      exact fun g hg => ipv6Group (h g hg)
    simp only [hrun, hall, if_true]
    simp only [values, pieces, Option.toList_none, List.map_nil, List.append_nil,
      List.flatMap_nil, List.map_map, Function.comp_def]

theorem isLower_head (s : Spelling) : IsLower s.lowered.undotted.head := by
  simp only [Spelling.undotted]
  split_ifs
  · exact isLower_spellOut (isLower_lowered s.head) _
  · exact isLower_lowered s.head

theorem isLower_rest {s : Spelling} {rest : List Hextet}
    (h : s.lowered.undotted.rest = some rest) : IsLower rest := by
  simp only [Spelling.undotted, Spelling.lowered, Option.map_map, Option.map_eq_some_iff] at h
  obtain ⟨rest, -, rfl⟩ := h
  exact isLower_spellOut (isLower_lowered rest) _

/-- The parser reads the groups of the address a spelling names. -/
theorem ipv6Hextets_text (s : Spelling) : ipv6Hextets s.text = some s.groups := by
  have hcut := s.lowered.cut_text.1
  have hgroups : s.lowered.undotted.groups = s.groups := by
    rw [groups_undotted, groups_lowered]
  have hhead := isLower_head s
  have hrest (rest) (h : s.lowered.undotted.rest = some rest) : IsLower rest := isLower_rest h
  rw [ipv6Hextets, Spelling.lower_text, hcut, undotted_body, ← hgroups]
  have hquad : s.lowered.undotted.quad = none := rfl
  generalize s.lowered.undotted = u at *
  have hlen := u.groups_length
  have hfits := u.fits
  cases h : u.rest with
  | none =>
    simp only [body_none h, hquad, splitPair_run, parseHextets_run hhead, groups_none h] at hlen ⊢
    simp [hlen]
  | some rest =>
    rw [h, hquad] at hfits
    have hlt : (values u.head none).length + (values rest none).length < 8 := by
      simp only [values_length, Option.toList_none, List.length_nil] at hfits ⊢
      omega
    simp only [body_some h, hquad, splitPair_compressed, parseHextets_run hhead,
      parseHextets_run (hrest rest h), groups_some h, if_pos hlt]
    simp [values_length]

end Spelled

end FerrumNexus.Publishing.Destinations
