import FerrumNexus.Publishing.DestinationReading

/-!
# Destinations by value

What the policy says of an address, stated on its value: the address a packet
is delivered to, the blocks that are not public, and when two addresses are one
destination. The checks of the source, which work on text and groups, agree with
it on every spelling.
-/
namespace FerrumNexus.Publishing.Destinations

open Network

/-! ## The policy on values -/

/-- IPv4-mapped `::ffff:0:0/96`. -/
def mappedBlock : Block := ⟨0xffff, 96⟩

/-- NAT64 `64:ff9b::/96`. -/
def nat64Block : Block := ⟨0x64ff9b * 2 ^ 64, 96⟩

/-- 6to4 `2002::/16`. -/
def sixToFourBlock : Block := ⟨0x2002, 16⟩

/-- The IPv4 address a 128-bit value carries. -/
def carried (value : ℕ) : Option IPv4 :=
  if mappedBlock.contains 128 value || nat64Block.contains 128 value then
    some (IPv4.ofValue (value % 2 ^ 32))
  else if sixToFourBlock.contains 128 value then some (IPv4.ofValue (value / 2 ^ 80 % 2 ^ 32))
  else none

/-- Where a packet to the address is delivered. -/
def destination : Address → Address
  | .v4 address => .v4 address
  | .v6 address => (carried address.value).elim (.v6 address) .v4

/-- `0/8`, `10/8`, `127/8`, `100.64/10`, `169.254/16`, `172.16/12`, `192.0/16`, `192.168/16`,
`198.18/15` and `224/3`. -/
def nonPublicIpv4 : List Block :=
  [⟨0, 8⟩, ⟨10, 8⟩, ⟨127, 8⟩, ⟨100 * 4 + 1, 10⟩, ⟨169 * 256 + 254, 16⟩, ⟨172 * 16 + 1, 12⟩,
    ⟨192 * 256, 16⟩, ⟨192 * 256 + 168, 16⟩, ⟨198 * 128 + 9, 15⟩, ⟨7, 3⟩]

/-- `::/16`, `64:ff9b::/32`, `fc00::/7`, `fe80::/9` and `ff00::/8`. -/
def nonPublicIpv6 : List Block :=
  [⟨0, 16⟩, ⟨0x64ff9b, 32⟩, ⟨0x7e, 7⟩, ⟨0x1fd, 9⟩, ⟨0xff, 8⟩]

/-- Whether the address is delivered to a public destination. -/
def isPublic (address : Address) : Bool :=
  match destination address with
  | .v4 found => !nonPublicIpv4.any fun block => block.contains 32 found.value
  | .v6 found => !nonPublicIpv6.any fun block => block.contains 128 found.value

/-- The loopback block, and the unspecified and the loopback address. -/
def isLocal : Address → Bool
  | .v4 address => (⟨127, 8⟩ : Block).contains 32 address.value || address.value == 0
  | .v6 address => address.value == 0 || address.value == 1

/-- The comparable text of a destination. -/
def canonicalText : Address → Text
  | .v4 address => address.text
  | .v6 address => join ':' (address.groups.map (Nat.toDigits 16))

/-! ## The IPv4 rules -/

theorem octets_text (q : IPv4) :
    (q.text.splitOn '.').map number = [(q.a : ℕ), q.b, q.c, q.d] := by
  simp [q.splitOn_text, number]

theorem isPublicIpv4_text (q : IPv4) :
    isPublicIpv4 q.text = !nonPublicIpv4.any fun block => block.contains 32 q.value := by
  have ha : q.value / 2 ^ 24 = q.a := by unfold IPv4.value; omega
  have hb : q.value / 2 ^ 16 = q.a * 256 + q.b := by unfold IPv4.value; omega
  have h10 : q.value / 2 ^ 22 = q.a * 4 + q.b / 64 := by unfold IPv4.value; omega
  have h12 : q.value / 2 ^ 20 = q.a * 16 + q.b / 16 := by unfold IPv4.value; omega
  have h15 : q.value / 2 ^ 17 = q.a * 128 + q.b / 2 := by unfold IPv4.value; omega
  have h3 : q.value / 2 ^ 29 = q.a / 32 := by unfold IPv4.value; omega
  have hq := q.a.isLt
  have hq' := q.b.isLt
  rw [Bool.eq_iff_iff]
  simp only [isPublicIpv4, octets_text, nonPublicIpv4, Block.contains, List.any_cons, List.any_nil,
    List.getD_cons_zero, List.getD_cons_succ, Nat.reduceSub, ha, hb, h10, h12, h15, h3,
    Bool.or_false, Bool.not_eq_true', Bool.or_eq_false_iff, Bool.and_eq_false_iff,
    beq_eq_false_iff_ne, decide_eq_false_iff_not, ne_eq]
  omega

/-! ## The embedded address -/

theorem shiftRight_and (g : ℕ) : g >>> 8 = g / 256 ∧ g &&& 0xff = g % 256 := by
  constructor
  · simp [Nat.shiftRight_eq_div_pow]
  · exact Nat.and_two_pow_sub_one_eq_mod g 8

theorem dottedQuad_eq {high low : ℕ} (hh : high < 2 ^ 16) (hl : low < 2 ^ 16) :
    dottedQuad high low = (IPv4.ofValue (high * 2 ^ 16 + low)).text := by
  have h (g : ℕ) : g / 256 = g >>> 8 ∧ g % 256 = g &&& 0xff :=
    ⟨(shiftRight_and g).1.symm, (shiftRight_and g).2.symm⟩
  have h1 : (high * 2 ^ 16 + low) / 2 ^ 24 % 256 = high / 256 := by omega
  have h2 : (high * 2 ^ 16 + low) / 2 ^ 16 % 256 = high % 256 := by omega
  have h3 : (high * 2 ^ 16 + low) / 2 ^ 8 % 256 = low / 256 := by omega
  have h4 : (high * 2 ^ 16 + low) % 256 = low % 256 := by omega
  simp only [dottedQuad, IPv4.text, IPv4.ofValue, Fin.val_ofNat, h1, h2, h3, h4, h, List.map_cons,
    List.map_nil]

/-- The groups carry an IPv4 address exactly where the value does, and the same one. -/
theorem embeddedIpv4_eq (address : IPv6) :
    embeddedIpv4 address.groups = (carried address.value).map IPv4.text := by
  obtain ⟨g₀, g₁, g₂, g₃, g₄, g₅, g₆, g₇, hg, h₀, h₁, h₂, h₃, h₄, h₅, h₆, h₇, hv⟩ :=
    address.exists_groups
  have hmapped : mappedBlock.contains 128 address.value =
      (allZero address.groups 0 5 && g₅ == 0xffff) := by
    rw [Bool.eq_iff_iff]
    simp only [mappedBlock, Block.contains, hv, hg, allZero, List.take_succ_cons, List.take_zero,
      List.drop_zero, List.all_cons, List.all_nil, Bool.and_eq_true, beq_iff_eq, Bool.and_true]
    omega
  have hnat64 : nat64Block.contains 128 address.value =
      (g₀ == 0x64 && g₁ == 0xff9b && allZero address.groups 2 6) := by
    rw [Bool.eq_iff_iff]
    simp only [nat64Block, Block.contains, hv, hg, allZero, List.take_succ_cons, List.take_zero,
      List.drop_succ_cons, List.drop_zero, List.all_cons, List.all_nil, Bool.and_eq_true,
      beq_iff_eq, Bool.and_true]
    omega
  have hsix : sixToFourBlock.contains 128 address.value = (g₀ == 0x2002) := by
    rw [Bool.eq_iff_iff]
    simp only [sixToFourBlock, Block.contains, hv, beq_iff_eq]
    omega
  have hlow : address.value % 2 ^ 32 = g₆ * 2 ^ 16 + g₇ := by omega
  have hhigh : address.value / 2 ^ 80 % 2 ^ 32 = g₁ * 2 ^ 16 + g₂ := by omega
  unfold embeddedIpv4 carried
  rw [hmapped, hnat64, hsix, hlow, hhigh]
  simp only [hg, List.getD_cons_zero, List.getD_cons_succ, dottedQuad_eq h₆ h₇, dottedQuad_eq h₁ h₂]
  cases allZero [g₀, g₁, g₂, g₃, g₄, g₅, g₆, g₇] 0 5 && g₅ == 0xffff <;>
    cases g₀ == 0x64 && g₁ == 0xff9b && allZero [g₀, g₁, g₂, g₃, g₄, g₅, g₆, g₇] 2 6 <;>
    cases g₀ == 0x2002 <;> rfl

/-! ## The IPv6 rules -/

theorem isPublicIpv6_text (s : Spelling) : isPublicIpv6 s.text = isPublic (.v6 s.address) := by
  obtain ⟨g₀, g₁, g₂, g₃, g₄, g₅, g₆, g₇, hg, h₀, h₁, h₂, h₃, h₄, h₅, h₆, h₇, hv⟩ :=
    s.address.exists_groups
  have hread : ipv6Hextets s.text = some s.address.groups := Spelled.ipv6Hextets_text s
  unfold isPublicIpv6 isPublic destination
  rw [hread]
  simp only [embeddedIpv4_eq]
  cases hcarried : carried s.address.value with
  | some q => exact isPublicIpv4_text q
  | none =>
    have h16 : s.address.value / 2 ^ 112 = g₀ := by omega
    have h32 : s.address.value / 2 ^ 96 = g₀ * 2 ^ 16 + g₁ := by omega
    have h7 : s.address.value / 2 ^ 121 = g₀ / 2 ^ 9 := by omega
    have h9 : s.address.value / 2 ^ 119 = g₀ / 2 ^ 7 := by omega
    have h8 : s.address.value / 2 ^ 120 = g₀ / 2 ^ 8 := by omega
    rw [Bool.eq_iff_iff]
    simp only [Option.map_none, Option.elim_none, hg, List.getD_cons_zero, List.getD_cons_succ,
      nonPublicIpv6, Block.contains, List.any_cons, List.any_nil, Nat.reduceSub, h16, h32, h7, h9,
      h8, Bool.or_false, Bool.not_eq_true', Bool.or_eq_false_iff, Bool.and_eq_false_iff,
      beq_eq_false_iff_ne, decide_eq_false_iff_not, ne_eq]
    omega

variable {address : Address} {host text : Text}

/-- The verdict on a literal is the verdict on the address it names. -/
theorem isPublicResolvedAddress_eq (h : Names text address) (family : ℕ) :
    isPublicResolvedAddress ⟨text, family⟩ = isPublic address := by
  cases address with
  | v4 q =>
    rw [← show q.text = text from h]
    simp only [isPublicResolvedAddress, isIP_v4, if_true, if_false, isPublicIpv4_text, isPublic,
      destination, OfNat.ofNat_ne_zero]
  | v6 a =>
    obtain ⟨s, rfl, rfl⟩ := h
    simp only [isPublicResolvedAddress, isIP_v6, if_false, isPublicIpv6_text,
      OfNat.ofNat_ne_zero, Nat.reduceEqDiff]

/-! ## The comparable form -/

theorem not_mem_of_names (h : Names text address) {c : Char} (hc : isZoneChar c = false)
    (hp : c ≠ '%') : c ∉ text := by
  intro hmem
  rcases isZoneChar_of_names h c hmem with h | h
  · simp_all
  · exact hp h

/-- A literal has no brackets. -/
theorem stripBrackets_of_names (h : Names text address) :
    stripBrackets text = text := by
  have hopen : text.head? ≠ some '[' := fun he =>
    not_mem_of_names h (by decide) (by decide) (List.mem_of_head? he)
  have hclose : text.getLast? ≠ some ']' := fun he =>
    not_mem_of_names h (by decide) (by decide) (List.mem_of_getLast? he)
  simp [stripBrackets, hopen, hclose]

/-- Lower case letters name the same address. -/
theorem names_lower (h : Names text address) :
    Names (lower text) address := by
  cases address with
  | v4 q =>
    rw [← show q.text = text from h]
    exact q.lower_text.symm
  | v6 a =>
    obtain ⟨s, rfl, rfl⟩ := h
    refine ⟨s.lowered, s.lower_text.symm, ?_⟩
    simp only [Spelling.address, Spelling.groups_lowered]

/-- The comparable form of a literal is the text of the destination it names. -/
theorem canonicalAddress_eq (h : Names text address) :
    canonicalAddress text = canonicalText (destination address) := by
  have hlow := names_lower h
  unfold canonicalAddress
  rw [stripBrackets_of_names h]
  generalize lower text = bare at *
  cases address with
  | v4 q =>
    rw [← show q.text = bare from hlow]
    simp [isIP_v4, destination, canonicalText]
  | v6 a =>
    obtain ⟨s, rfl, rfl⟩ := hlow
    have hread : ipv6Hextets s.text = some s.address.groups := Spelled.ipv6Hextets_text s
    simp only [isIP_v6, hread, embeddedIpv4_eq, destination, Nat.reduceEqDiff, if_false, ne_eq,
      not_true_eq_false]
    cases carried s.address.value <;> rfl

theorem colon_mem_canonicalText (a : IPv6) : ':' ∈ canonicalText (.v6 a) := by
  obtain ⟨g₀, g₁, g₂, g₃, g₄, g₅, g₆, g₇, hg, -⟩ := a.exists_groups
  simp [canonicalText, hg, join_cons_cons]

theorem canonicalText_injective : Function.Injective canonicalText := by
  have hcross (q : IPv4) (a : IPv6) : canonicalText (.v4 q) ≠ canonicalText (.v6 a) := by
    intro h
    exact q.not_mem_text (by decide) (by decide)
      (show ':' ∈ canonicalText (.v4 q) from h ▸ colon_mem_canonicalText a)
  have hsplit (a : IPv6) : (canonicalText (.v6 a)).splitOn ':' =
      a.groups.map (Nat.toDigits 16) := by
    refine splitOn_join ':' _ ?_ ?_
    · intro piece hp hc
      obtain ⟨n, -, rfl⟩ := List.mem_map.1 hp
      have hhex := (isHexDigit_iff _).1 (digitChars_toDigits n ':' hc).1
      exact absurd hhex (by decide)
    · have hlen := a.length_eq
      intro hnil
      simp_all
  intro x y h
  cases x with
  | v4 p =>
    cases y with
    | v4 q => exact congrArg Address.v4 (IPv4.text_injective h)
    | v6 b => exact absurd h (hcross p b)
  | v6 a =>
    cases y with
    | v4 q => exact absurd h.symm (hcross q a)
    | v6 b =>
      have hgroups := congrArg (List.splitOn ':') h
      rw [hsplit, hsplit] at hgroups
      have := List.map_injective_iff.2 toDigits_sixteen_injective hgroups
      cases a; cases b
      simp_all

/-- Which comparable forms reach the local host. -/
theorem isLocalHostAddress_eq (address : Address) :
    isLocalHostAddress (canonicalText address) = isLocal address := by
  cases address with
  | v4 q =>
    have hzero : "0.0.0.0".toList = (⟨0, 0, 0, 0⟩ : IPv4).text := by decide
    have hloop : "127.".toList.isPrefixOf q.text = true ↔ q.a = 127 := by
      have hdigits : Nat.toDigits 10 127 = "127".toList := by decide
      rw [List.isPrefixOf_iff_prefix]
      constructor
      · rintro ⟨rest, hrest⟩
        have hs := congrArg (List.splitOn '.') hrest
        have hcut : "127.".toList ++ rest = "127".toList ++ '.' :: rest := rfl
        rw [hcut, List.splitOn_append_cons_self_of_not_mem (by decide), q.splitOn_text] at hs
        have ha := toDigits_ten_injective ((List.cons.inj hs).1.symm.trans hdigits.symm)
        exact Fin.ext ha
      · intro ha
        rw [IPv4.text, ha, join_cons_cons]
        exact ⟨_, by rw [show ((127 : Fin 256) : ℕ) = 127 from rfl, hdigits]; rfl⟩
    have hvalue : q = ⟨0, 0, 0, 0⟩ ↔ q.value = 0 := by
      rw [← IPv4.value_injective.eq_iff]
      rfl
    have hblock : q.value / 2 ^ 24 = q.a := by unfold IPv4.value; omega
    rw [Bool.eq_iff_iff]
    simp only [isLocalHostAddress, canonicalText, isIP_v4, if_true, isLocal, Bool.or_eq_true,
      hloop, beq_iff_eq, hzero, IPv4.text_injective.eq_iff, hvalue, Block.contains,
      Nat.reduceSub, hblock]
    omega
  | v6 a =>
    have hone : IPV6_LOOPBACK =
        canonicalText (.v6 ⟨[0, 0, 0, 0, 0, 0, 0, 1], rfl, by decide⟩) := by decide
    have hzero : IPV6_UNSPECIFIED =
        canonicalText (.v6 ⟨[0, 0, 0, 0, 0, 0, 0, 0], rfl, by decide⟩) := by decide
    have hne : isIP (canonicalText (.v6 a)) ≠ 4 := by
      intro h
      unfold isIP at h
      split_ifs at h with h4
      · obtain ⟨q, hq⟩ := (isIPv4_iff _).1 h4
        exact q.not_mem_text (by decide) (by decide) (hq ▸ colon_mem_canonicalText a)
      · simp at h
    rw [Bool.eq_iff_iff]
    simp only [isLocalHostAddress, if_neg hne, hone, hzero, Bool.or_eq_true, beq_iff_eq,
      canonicalText_injective.eq_iff, Address.v6.injEq, isLocal, ← IPv6.value_injective.eq_iff]
    exact or_comm

/-! ## Hosts without a zone index -/

theorem not_mem_lower (h : Names text address) (hzone : '%' ∉ text) : '%' ∉ lower text := by
  have hlow : ∀ c ∈ literalChars, c.toLower ≠ '%' :=
    List.forall_iff_forall_mem.1 (by decide)
  intro hmem
  obtain ⟨c, hc, he⟩ := List.mem_map.1 hmem
  exact hlow c ((plain_of_names h hzone).1 c hc) he

theorem not_mem_stripBrackets {c : Char} (h : c ∉ host) : c ∉ stripBrackets host := by
  have hopened : c ∉ if host.head? = some '[' then host.tail else host := by
    split_ifs
    · exact fun hc => h (List.mem_of_mem_tail hc)
    · exact h
  unfold stripBrackets
  generalize (if host.head? = some '[' then host.tail else host) = opened at *
  dsimp only
  split_ifs
  · exact fun hc => hopened (List.mem_of_mem_dropLast hc)
  · exact hopened

theorem normalizeHost_of_names (h : Names text address) (hzone : '%' ∉ text) :
    normalizeHost text = lower text := by
  rw [normalizeHost, if_neg (plain_of_names h hzone).2]

/-- No literal ends in a name suffix. -/
theorem endsWith_of_names (suffix : String) (hsuffix : ∃ c ∈ suffix.toList, c ∉ literalChars)
    (h : Names text address) (hzone : '%' ∉ text) : endsWith suffix text = false := by
  obtain ⟨c, hc, hnot⟩ := hsuffix
  by_contra hends
  have hs : suffix.toList <:+ text := List.isSuffixOf_iff_suffix.1 (by simpa [endsWith] using hends)
  exact hnot ((plain_of_names h hzone).1 c (hs.subset hc))

/-- The verdict on a host that is a literal is the verdict on the address it names. -/
theorem isPublicUpstreamHost_eq (h : Names host address) (hzone : '%' ∉ host) :
    isPublicUpstreamHost host = isPublic address := by
  have hlow := names_lower h
  have hplain := not_mem_lower h hzone
  have hname : lower host ≠ "localhost".toList := by
    intro he
    have := (plain_of_names hlow hplain).1 'l' (by rw [he]; decide)
    exact absurd this (by decide)
  unfold isPublicUpstreamHost
  rw [normalizeHost_of_names h hzone]
  simp only [hname, decide_false, Bool.false_or,
    endsWith_of_names ".localhost" ⟨'l', by decide, by decide⟩ hlow hplain,
    endsWith_of_names ".local" ⟨'l', by decide, by decide⟩ hlow hplain,
    endsWith_of_names ".internal" ⟨'l', by decide, by decide⟩ hlow hplain,
    endsWith_of_names ".home.arpa" ⟨'m', by decide, by decide⟩ hlow hplain,
    Bool.false_eq_true, if_false]
  generalize lower host = name at *
  cases address with
  | v4 q =>
    rw [← show q.text = name from hlow]
    simp only [isIP_v4, if_true, isPublicIpv4_text, isPublic, destination]
  | v6 a =>
    obtain ⟨s, rfl, rfl⟩ := hlow
    simp only [isIP_v6, Nat.reduceEqDiff, if_false, if_true, isPublicIpv6_text]

theorem canonicalHost_of_names (h : Names host address) :
    canonicalHost host = canonicalText (destination address) := by
  have hip : isIP host ≠ 0 := (isIP_ne_zero_iff host).2 ⟨address, h⟩
  rw [canonicalHost, stripBrackets_of_names h, if_neg hip, canonicalAddress_eq h]

theorem addressesForHost_of_names (h : Names host address) (hzone : '%' ∉ host)
    (resolve : UpstreamResolver) (required : Bool) :
    addressesForHost host resolve required = .ok [canonicalText (destination address)] := by
  have hlow := names_lower h
  have hip : isIP (lower host) ≠ 0 := (isIP_ne_zero_iff _).2 ⟨address, hlow⟩
  unfold addressesForHost
  rw [normalizeHost_of_names h hzone, stripBrackets_of_names hlow, if_pos hip,
    canonicalAddress_eq hlow]

end FerrumNexus.Publishing.Destinations
