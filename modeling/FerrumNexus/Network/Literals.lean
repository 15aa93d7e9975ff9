import FerrumNexus.Network.Spellings

/-!
# What `isIP` accepts

A text is an IPv4 or IPv6 literal exactly if it is a spelling of some address.
-/
namespace FerrumNexus.Network

theorem isOctet_iff (text : Text) :
    isOctet text = true ↔ ∃ n : Fin 256, Nat.toDigits 10 n = text := by
  simp only [isOctet, Bool.and_eq_true, decide_eq_true_eq, beq_iff_eq]
  constructor
  · rintro ⟨hle, htext⟩
    exact ⟨⟨_, Nat.lt_succ_of_le hle⟩, htext⟩
  · rintro ⟨n, rfl⟩
    rw [Nat.ofDigitChars_ten_toDigits]
    exact ⟨by omega, rfl⟩

theorem not_mem_toDigits {n : ℕ} {c : Char} (hc : c.isDigit = false) : c ∉ Nat.toDigits 10 n := by
  intro h
  have := isDigit_toDigits n c h
  simp_all

namespace IPv4

theorem splitOn_text (q : IPv4) : q.text.splitOn '.' =
    [Nat.toDigits 10 q.a, Nat.toDigits 10 q.b, Nat.toDigits 10 q.c, Nat.toDigits 10 q.d] := by
  apply splitOn_join
  · have h (n : ℕ) : '.' ∉ Nat.toDigits 10 n := not_mem_toDigits (by decide)
    simp [h]
  · simp

theorem text_injective : Function.Injective text := by
  intro p q h
  have hs := congrArg (List.splitOn '.') h
  simp only [splitOn_text, List.cons.injEq, toDigits_ten_injective.eq_iff] at hs
  cases p; cases q
  simp_all [Fin.ext_iff]

theorem mem_text (q : IPv4) {c : Char} (h : c ∈ q.text) : c = '.' ∨ c.isDigit = true := by
  rcases mem_join h with h | ⟨piece, hp, hc⟩
  · exact .inl h
  · right
    simp only [List.mem_cons, List.not_mem_nil, or_false] at hp
    rcases hp with rfl | rfl | rfl | rfl <;> exact isDigit_toDigits _ c hc

theorem not_mem_text (q : IPv4) {c : Char} (hc : c.isDigit = false) (hd : c ≠ '.') :
    c ∉ q.text := by
  intro h
  rcases q.mem_text h with h | h
  · exact hd h
  · simp_all

theorem dot_mem_text (q : IPv4) : '.' ∈ q.text := by
  simp [text, join_cons_cons]

theorem text_ne_nil (q : IPv4) : q.text ≠ [] := List.ne_nil_of_mem q.dot_mem_text

theorem groups_lt (q : IPv4) : ∀ g ∈ q.groups, g < 2 ^ 16 := by
  simp only [groups, List.mem_cons, List.not_mem_nil, or_false, forall_eq_or_imp, forall_eq]
  omega

end IPv4

/-- Four octets in decimal, and nothing else. -/
theorem isIPv4_iff (text : Text) : isIPv4 text = true ↔ ∃ q : IPv4, q.text = text := by
  constructor
  · intro h
    unfold isIPv4 at h
    split at h
    · rename_i a b c d hsplit
      simp only [Bool.and_eq_true, isOctet_iff] at h
      obtain ⟨⟨⟨⟨a', rfl⟩, b', rfl⟩, c', rfl⟩, d', rfl⟩ := h
      refine ⟨⟨a', b', c', d'⟩, ?_⟩
      rw [IPv4.text, ← hsplit]
      exact List.intercalate_splitOn '.'
    · simp at h
  · rintro ⟨q, rfl⟩
    simp [isIPv4, q.splitOn_text, isOctet_iff]

/-- A dotted quad is no group. -/
theorem isHextet_text (q : IPv4) : isHextet q.text = false := by
  by_contra h
  exact (Hextet.not_mem ⟨q.text, by simpa using h⟩).2.1 q.dot_mem_text

namespace Spelling

theorem mem_pieces {groups : List Hextet} {quad : Option IPv4} {piece : Text}
    (h : piece ∈ pieces groups quad) : (∃ g : Hextet, g.val = piece) ∨ ∃ q : IPv4, q.text = piece := by
  simp only [pieces, List.mem_append, List.mem_map, Option.mem_toList] at h
  rcases h with ⟨g, -, rfl⟩ | ⟨q, -, rfl⟩
  · exact .inl ⟨g, rfl⟩
  · exact .inr ⟨q, rfl⟩

theorem pieces_ok (groups : List Hextet) (quad : Option IPv4) :
    ∀ piece ∈ pieces groups quad, piece ≠ [] ∧ ':' ∉ piece ∧ '%' ∉ piece := by
  intro piece h
  rcases mem_pieces h with ⟨g, rfl⟩ | ⟨q, rfl⟩
  · exact ⟨g.ne_nil, g.not_mem.1, g.not_mem.2.2⟩
  · exact ⟨q.text_ne_nil, q.not_mem_text (by decide) (by decide),
      q.not_mem_text (by decide) (by decide)⟩

theorem pieces_length (groups : List Hextet) (quad : Option IPv4) :
    (pieces groups quad).length = groups.length + quad.toList.length := by
  simp [pieces]

theorem join_eq_nil_iff (groups : List Hextet) (quad : Option IPv4) :
    join ':' (pieces groups quad) = [] ↔ pieces groups quad = [] := by
  have h := pieces_ok groups quad
  generalize pieces groups quad = ps at *
  match ps with
  | [] => simp
  | [p] => simpa using (h p (by simp)).1
  | p :: q :: ps => simp [join_cons_cons]

/-- The pieces are read back from the run they make. -/
theorem run_join (groups : List Hextet) (quad : Option IPv4) :
    run (join ':' (pieces groups quad)) = pieces groups quad := by
  unfold run
  split_ifs with h
  · exact ((join_eq_nil_iff groups quad).1 h).symm
  · have hne : pieces groups quad ≠ [] := fun hn => h ((join_eq_nil_iff groups quad).2 hn)
    exact splitOn_join ':' _ (fun p hp => (pieces_ok groups quad p hp).2.1) hne

/-- Pieces count one group each, and a quad two. -/
theorem width_pieces (groups : List Hextet) (quad : Option IPv4) :
    width (pieces groups quad) = some (groups.length + 2 * quad.toList.length) := by
  induction groups with
  | nil =>
    cases quad with
    | none => rfl
    | some q => simp [pieces, width, isHextet_text, (isIPv4_iff q.text).2 ⟨q, rfl⟩]
  | cons g groups ih =>
    have hcons : pieces (g :: groups) quad = g.val :: pieces groups quad := rfl
    rw [hcons]
    generalize pieces groups quad = ps at *
    cases ps with
    | nil =>
      have h0 : groups.length + 2 * quad.toList.length = 0 := by simpa [width] using ih.symm
      simp only [width, g.property, if_true, Option.some.injEq, List.length_cons]
      omega
    | cons p ps =>
      simp only [width, g.property, if_true, ih, Option.map_some, Option.some.injEq,
        List.length_cons]
      omega

theorem values_length (groups : List Hextet) (quad : Option IPv4) :
    (values groups quad).length = groups.length + 2 * quad.toList.length := by
  cases quad <;> simp [values, IPv4.groups]

theorem values_lt (groups : List Hextet) (quad : Option IPv4) :
    ∀ v ∈ values groups quad, v < 2 ^ 16 := by
  intro v hv
  simp only [values, List.mem_append, List.mem_map, List.mem_flatMap] at hv
  rcases hv with ⟨g, -, rfl⟩ | ⟨q, -, hq⟩
  · have hlt := hexValue_lt g.val fun c hc => (isHexDigit_iff c).2 (g.digits c hc)
    have hlen : g.val.length ≤ 4 := by
      have := g.property
      simp only [isHextet, Bool.and_eq_true, decide_eq_true_eq] at this
      omega
    calc hexValue g.val < 16 ^ g.val.length := hlt
      _ ≤ 16 ^ 4 := Nat.pow_le_pow_right (by decide) hlen
      _ = 2 ^ 16 := by decide
  · exact q.groups_lt v hq

theorem body_none {s : Spelling} (h : s.rest = none) :
    s.body = join ':' (pieces s.head s.quad) := by
  simp [body, h]

theorem body_some {s : Spelling} {rest : List Hextet} (h : s.rest = some rest) :
    s.body = join ':' (pieces s.head none) ++ ':' :: ':' :: join ':' (pieces rest s.quad) := by
  simp [body, h]

theorem groups_none {s : Spelling} (h : s.rest = none) : s.groups = values s.head s.quad := by
  simp [groups, h]

theorem groups_some {s : Spelling} {rest : List Hextet} (h : s.rest = some rest) :
    s.groups = values s.head none ++
      List.replicate (8 - s.head.length - (values rest s.quad).length) 0 ++
      values rest s.quad := by
  simp [groups, h]

/-- Written or elided, the groups are eight. -/
theorem groups_length (s : Spelling) : s.groups.length = 8 := by
  have hfits := s.fits
  cases h : s.rest with
  | none =>
    rw [h] at hfits
    rw [groups_none h, values_length]
    exact hfits
  | some rest =>
    rw [h] at hfits
    simp only [groups_some h, List.length_append, List.length_replicate, values_length,
      Option.toList_none, List.length_nil]
    omega

theorem groups_lt (s : Spelling) : ∀ g ∈ s.groups, g < 2 ^ 16 := by
  intro g hg
  unfold groups at hg
  split at hg
  · exact values_lt _ _ g hg
  · simp only [List.mem_append, List.mem_replicate] at hg
    rcases hg with (hg | ⟨-, rfl⟩) | hg
    · exact values_lt _ _ g hg
    · decide
    · exact values_lt _ _ g hg

/-- The address a spelling names. -/
def address (s : Spelling) : IPv6 := ⟨s.groups, s.groups_length, s.groups_lt⟩

end Spelling

/-- A run has a width exactly if it is groups with at most a dotted quad behind them. -/
theorem width_eq_some {ps : List Text} {w : ℕ} (h : width ps = some w) :
    ∃ groups quad, ps = Spelling.pieces groups quad ∧
      w = groups.length + 2 * quad.toList.length := by
  induction ps using width.induct generalizing w with
  | case1 =>
    simp only [width, Option.some.injEq] at h
    exact ⟨[], none, rfl, by simp [← h]⟩
  | case2 last hl =>
    simp only [width, hl, if_true, Option.some.injEq] at h
    exact ⟨[⟨last, hl⟩], none, rfl, by simp [← h]⟩
  | case3 last hl hq =>
    simp only [width, hl, hq, if_true, if_false, Option.some.injEq, Bool.false_eq_true] at h
    obtain ⟨q, rfl⟩ := (isIPv4_iff last).1 hq
    exact ⟨[], some q, rfl, by simp [← h]⟩
  | case4 last hl hq => simp [width, hl, hq] at h
  | case5 piece pieces hne hp ih =>
    rw [width, if_pos hp] at h
    · obtain ⟨v, hv, rfl⟩ := Option.map_eq_some_iff.1 h
      obtain ⟨groups, quad, rfl, rfl⟩ := ih hv
      exact ⟨⟨piece, hp⟩ :: groups, quad, rfl, by simp; omega⟩
    · exact hne
  | case6 piece pieces hne hp =>
    rw [width, if_neg hp] at h
    · simp at h
    · exact hne

theorem join_run (text : Text) : join ':' (run text) = text := by
  unfold run
  split_ifs with h
  · simp [h]
  · exact List.intercalate_splitOn ':'

theorem all_isHextet {ps : List Text} (h : ps.all isHextet = true) :
    ∃ groups : List Hextet, ps = Spelling.pieces groups none := by
  induction ps with
  | nil => exact ⟨[], rfl⟩
  | cons p ps ih =>
    simp only [List.all_cons, Bool.and_eq_true] at h
    obtain ⟨groups, rfl⟩ := ih h.2
    exact ⟨⟨p, h.1⟩ :: groups, rfl⟩

namespace Spelling

theorem splitPair_run (groups : List Hextet) (quad : Option IPv4) :
    splitPair (join ':' (pieces groups quad)) = [join ':' (pieces groups quad)] := by
  have hok (p) (hp : p ∈ pieces groups quad) : p ≠ [] ∧ ':' ∉ p :=
    ⟨(pieces_ok groups quad p hp).1, (pieces_ok groups quad p hp).2.1⟩
  simpa [splitPair] using splitPair_join hok []

theorem splitPair_compressed (head rest : List Hextet) (quad : Option IPv4) :
    splitPair (join ':' (pieces head none) ++ ':' :: ':' :: join ':' (pieces rest quad)) =
      [join ':' (pieces head none), join ':' (pieces rest quad)] := by
  have hok (p) (hp : p ∈ pieces head none) : p ≠ [] ∧ ':' ∉ p :=
    ⟨(pieces_ok head none p hp).1, (pieces_ok head none p hp).2.1⟩
  rw [splitPair_join hok, splitPair_pair, splitPair_run]
  simp

theorem not_mem_body (s : Spelling) : '%' ∉ s.body := by
  have hjoin (groups quad) : '%' ∉ join ':' (pieces groups quad) := by
    intro h
    rcases mem_join h with h | ⟨p, hp, hc⟩
    · simp at h
    · exact (pieces_ok groups quad p hp).2.2 hc
  unfold body
  split
  · exact hjoin _ _
  · simp [hjoin]

/-- Cutting a spelling at its zone index. -/
theorem cut_text (s : Spelling) : s.text.takeWhile (· ≠ '%') = s.body ∧
    s.text.dropWhile (· ≠ '%') = s.zone := by
  have hbody : ∀ c ∈ s.body, (c ≠ '%' : Bool) = true := by
    intro c hc
    simpa using fun h : c = '%' => s.not_mem_body (h ▸ hc)
  have hzone := s.zone_ok
  unfold text
  cases h : s.zone with
  | nil =>
    have htake := @List.takeWhile_append_of_pos _ (· ≠ '%') _ [] hbody
    have hdrop := @List.dropWhile_append_of_pos _ (· ≠ '%') _ [] hbody
    simpa using And.intro htake hdrop
  | cons c zone =>
    have hc : c = '%' := by
      simp only [h, isZone, Bool.and_eq_true, beq_iff_eq] at hzone
      exact hzone.1.1
    rw [List.takeWhile_append_of_pos hbody, List.dropWhile_append_of_pos hbody]
    simp [hc]

theorem isIPv6_text (s : Spelling) : isIPv6 s.text = true := by
  rw [isIPv6, s.cut_text.1, s.cut_text.2, s.zone_ok, Bool.and_true, isGrouped]
  have hfits := s.fits
  cases h : s.rest with
  | none =>
    rw [h] at hfits
    rw [body_none h, splitPair_run]
    simp [run_join, width_pieces, hfits]
  | some rest =>
    rw [h] at hfits
    have hall : (pieces s.head none).all isHextet = true := by
      simp [pieces]
      exact fun _ h _ => h
    rw [body_some h, splitPair_compressed]
    simp only [run_join, width_pieces, hall, pieces_length, Option.any_some, Bool.true_and,
      decide_eq_true_eq, Option.toList_none, List.length_nil]
    omega

end Spelling

/-- The scanner accepts the spellings of an address and nothing else. -/
theorem isIPv6_iff (text : Text) : isIPv6 text = true ↔ ∃ s : Spelling, s.text = text := by
  refine ⟨fun h => ?_, fun ⟨s, hs⟩ => hs ▸ s.isIPv6_text⟩
  rw [isIPv6, Bool.and_eq_true] at h
  obtain ⟨hgrouped, hzone⟩ := h
  have htext : text.takeWhile (· ≠ '%') ++ text.dropWhile (· ≠ '%') = text :=
    List.takeWhile_append_dropWhile
  generalize text.takeWhile (· ≠ '%') = body at *
  have hbody := intercalate_splitPair body
  unfold isGrouped at hgrouped
  split at hgrouped
  · rename_i whole hsplit
    obtain ⟨groups, quad, hrun, hw⟩ := width_eq_some (beq_iff_eq.1 hgrouped)
    refine ⟨⟨groups, none, quad, _, hzone, hw.symm⟩, ?_⟩
    have hwhole : whole = body := by simpa [hsplit] using hbody
    simp only [Spelling.text, Spelling.body, ← hrun, join_run, hwhole, htext]
  · rename_i head rest hsplit
    rw [Bool.and_eq_true] at hgrouped
    obtain ⟨groups, hhead⟩ := all_isHextet hgrouped.1
    cases hwidth : width (run rest) with
    | none => simp [hwidth] at hgrouped
    | some w =>
      obtain ⟨more, quad, hrun, hw⟩ := width_eq_some hwidth
      have hlen : (run head).length = groups.length := by simp [hhead, Spelling.pieces_length]
      have hle : (run head).length + w ≤ 7 := by simpa [hwidth] using hgrouped.2
      refine ⟨⟨groups, some more, quad, _, hzone, by simp only; omega⟩, ?_⟩
      have hparts : head ++ ':' :: ':' :: rest = body := by
        simpa [hsplit, List.intercalate_cons_of_ne_nil] using hbody
      simp only [Spelling.text, Spelling.body, ← hhead, ← hrun, join_run, hparts, htext]
  · simp at hgrouped

/-- The addresses `isIP` tells apart. -/
inductive Address where
  | v4 (address : IPv4)
  | v6 (address : IPv6)
  deriving DecidableEq

/-- A text names an address if it is one of its spellings. -/
def Names (text : Text) : Address → Prop
  | .v4 address => address.text = text
  | .v6 address => ∃ s : Spelling, s.text = text ∧ s.address = address

/-- Every spelling of an IPv6 address holds a colon. -/
theorem Spelling.colon_mem_text (s : Spelling) : ':' ∈ s.text := by
  have hfits := s.fits
  unfold text
  cases h : s.rest with
  | some rest => simp [body_some h]
  | none =>
    rw [h] at hfits
    rw [body_none h]
    have hlen := pieces_length s.head s.quad
    generalize pieces s.head s.quad = ps at *
    have hquad : s.quad.toList.length ≤ 1 := Option.length_toList_le
    match ps with
    | [] => simp only [List.length_nil] at hlen; omega
    | [p] => simp only [List.length_singleton] at hlen; omega
    | p :: q :: ps => simp [join_cons_cons]

theorem not_isIPv4_spelling (s : Spelling) : isIPv4 s.text = false := by
  by_contra h
  obtain ⟨q, hq⟩ := (isIPv4_iff s.text).1 (by simpa using h)
  exact q.not_mem_text (by decide) (by decide) (hq ▸ s.colon_mem_text)

theorem isIP_v4 (q : IPv4) : isIP q.text = 4 := by
  simp [isIP, (isIPv4_iff q.text).2 ⟨q, rfl⟩]

theorem isIP_v6 (s : Spelling) : isIP s.text = 6 := by
  simp [isIP, not_isIPv4_spelling, s.isIPv6_text]

/-- `isIP` accepts a text exactly if it names an address. -/
theorem isIP_ne_zero_iff (text : Text) : isIP text ≠ 0 ↔ ∃ address, Names text address := by
  constructor
  · intro h
    unfold isIP at h
    split_ifs at h with h4 h6
    · obtain ⟨q, hq⟩ := (isIPv4_iff text).1 h4
      exact ⟨.v4 q, hq⟩
    · obtain ⟨s, hs⟩ := (isIPv6_iff text).1 h6
      exact ⟨.v6 s.address, s, hs, rfl⟩
    · simp at h
  · rintro ⟨q | a, h⟩
    · rw [← show q.text = text from h, isIP_v4]; decide
    · obtain ⟨s, rfl, -⟩ := h
      rw [isIP_v6]; decide

end FerrumNexus.Network
