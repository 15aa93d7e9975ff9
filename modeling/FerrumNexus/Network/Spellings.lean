import FerrumNexus.Network.Numerals
import Mathlib.Tactic.Ring

/-!
# Textual addresses

An IPv4 address is written as a dotted quad of decimal numerals without leading
zeros. An IPv6 address has many spellings: up to eight groups of one to four
hexadecimal digits, one run of zero groups written `::`, the last two groups as
a dotted quad, and a zone index behind `%`. `isIP` decides which texts are
spellings; a `Spelling` is one, with the address it names. An address is also a
number of 32 or 128 bits, and those that share a prefix form a block.
-/
namespace FerrumNexus.Network

/-- `pieces.join(separator)`. -/
def join (separator : Char) (pieces : List Text) : Text := [separator].intercalate pieces

@[simp] theorem join_nil (c : Char) : join c [] = [] := by simp [join]

@[simp] theorem join_singleton (c : Char) (piece : Text) : join c [piece] = piece := by
  simp [join]

theorem join_cons_cons (c : Char) (piece next : Text) (pieces : List Text) :
    join c (piece :: next :: pieces) = piece ++ c :: join c (next :: pieces) := by
  simp [join, List.intercalate_cons_of_ne_nil]

/-- Every piece but the last is followed by the separator. -/
theorem join_concat (c : Char) (pieces : List Text) (last : Text) :
    join c (pieces ++ [last]) = (pieces.flatMap fun piece => piece ++ [c]) ++ last := by
  induction pieces with
  | nil => simp
  | cons piece pieces ih =>
    cases pieces with
    | nil => simp [join_cons_cons]
    | cons next pieces =>
      simp only [List.cons_append, join_cons_cons, List.flatMap_cons] at ih ⊢
      simp [ih]

theorem splitOn_join (c : Char) (pieces : List Text) (hc : ∀ piece ∈ pieces, c ∉ piece)
    (hne : pieces ≠ []) : (join c pieces).splitOn c = pieces :=
  List.splitOn_intercalate c hc hne

/-- A character of joined pieces is the separator, or of a piece. -/
theorem mem_join {c x : Char} {pieces : List Text} (h : x ∈ join c pieces) :
    x = c ∨ ∃ piece ∈ pieces, x ∈ piece := by
  induction pieces with
  | nil => simp at h
  | cons piece pieces ih =>
    cases pieces with
    | nil => simp_all
    | cons next pieces =>
      rw [join_cons_cons, List.mem_append, List.mem_cons] at h
      rcases h with h | h | h
      · exact .inr ⟨piece, by simp, h⟩
      · exact .inl h
      · rcases ih h with h | ⟨found, hf, hx⟩
        · exact .inl h
        · exact .inr ⟨found, List.mem_cons_of_mem _ hf, hx⟩

/-- `text.split('::')`. -/
def splitPair : Text → List Text
  | [] => [[]]
  | [c] => [[c]]
  | c :: d :: rest =>
    if c = ':' ∧ d = ':' then [] :: splitPair rest
    else (splitPair (d :: rest)).modifyHead (c :: ·)

theorem splitPair_ne_nil (text : Text) : splitPair text ≠ [] := by
  induction text using splitPair.induct with
  | case1 => simp [splitPair]
  | case2 c => simp [splitPair]
  | case3 c d rest h ih => simp [splitPair, h]
  | case4 c d rest h ih => simpa [splitPair, h] using ih

/-- Joining the parts again gives the text. -/
theorem intercalate_splitPair (text : Text) :
    List.intercalate [':', ':'] (splitPair text) = text := by
  induction text using splitPair.induct with
  | case1 => simp [splitPair]
  | case2 c => simp [splitPair]
  | case3 c d rest h ih =>
    simp [splitPair, h, List.intercalate_cons_of_ne_nil (splitPair_ne_nil rest), ih]
  | case4 c d rest h ih =>
    rw [splitPair, if_neg h]
    have hne := splitPair_ne_nil (d :: rest)
    generalize splitPair (d :: rest) = parts at *
    cases parts with
    | nil => exact absurd rfl hne
    | cons part parts =>
      cases parts with
      | nil => simpa using ih
      | cons next parts =>
        simp [List.intercalate_cons_of_ne_nil] at ih ⊢
        exact ih

@[simp] theorem splitPair_pair (rest : Text) :
    splitPair (':' :: ':' :: rest) = [] :: splitPair rest := by
  simp [splitPair]

theorem splitPair_cons {c : Char} (hc : c ≠ ':') (rest : Text) :
    splitPair (c :: rest) = (splitPair rest).modifyHead (c :: ·) := by
  cases rest with
  | nil => simp [splitPair]
  | cons d rest => simp [splitPair, hc]

theorem splitPair_colon {d : Char} (hd : d ≠ ':') (rest : Text) :
    splitPair (':' :: d :: rest) = (splitPair (d :: rest)).modifyHead (':' :: ·) := by
  simp [splitPair, hd]

theorem splitPair_append {piece : Text} (hp : ':' ∉ piece) (rest : Text) :
    splitPair (piece ++ rest) = (splitPair rest).modifyHead (piece ++ ·) := by
  induction piece with
  | nil =>
    cases h : splitPair rest <;> simp [h]
  | cons c piece ih =>
    have hc : c ≠ ':' := by rintro rfl; simp at hp
    rw [List.cons_append, splitPair_cons hc, ih (by simp_all)]
    cases splitPair rest <;> simp

/-- A run of non-empty pieces holds no `::`, and one put behind it starts a new part. -/
theorem splitPair_join {pieces : List Text} (hp : ∀ piece ∈ pieces, piece ≠ [] ∧ ':' ∉ piece)
    (rest : Text) :
    splitPair (join ':' pieces ++ rest) =
      (splitPair rest).modifyHead (join ':' pieces ++ ·) := by
  induction pieces with
  | nil => cases h : splitPair rest <;> simp [h]
  | cons piece pieces ih =>
    have ih := ih fun p h => hp p (by simp [h])
    cases pieces with
    | nil => rw [join_singleton, splitPair_append (hp piece (by simp)).2]
    | cons next pieces =>
      -- the text behind the colon starts with a character of `next`, which is no colon
      obtain ⟨hne, hnext⟩ := hp next (by simp)
      obtain ⟨d, more, hd⟩ : ∃ d more, join ':' (next :: pieces) ++ rest = d :: more ∧ d ≠ ':' := by
        cases next with
        | nil => exact absurd rfl hne
        | cons d next =>
          have hd : d ≠ ':' := by rintro rfl; simp at hnext
          cases pieces with
          | nil => exact ⟨d, next ++ rest, by simp, hd⟩
          | cons p ps => exact ⟨d, next ++ ':' :: join ':' (p :: ps) ++ rest,
              by simp [join_cons_cons], hd⟩
      rw [join_cons_cons, List.append_assoc, splitPair_append (hp piece (by simp)).2,
        List.cons_append, hd.1, splitPair_colon hd.2, ← hd.1, ih]
      cases splitPair rest <;> simp

/-- A decimal numeral up to 255 without leading zeros. -/
def isOctet (text : Text) : Bool :=
  let n := Nat.ofDigitChars 10 text 0
  n ≤ 255 && Nat.toDigits 10 n == text

/-- One to four hexadecimal digits. -/
def isHextet (text : Text) : Bool :=
  1 ≤ text.length && text.length ≤ 4 && text.all isHexDigit

def isIPv4 (text : Text) : Bool :=
  match text.splitOn '.' with
  | [a, b, c, d] => isOctet a && isOctet b && isOctet c && isOctet d
  | _ => false

/-- How many groups a run of pieces stands for; a dotted quad at its end counts two. -/
def width : List Text → Option ℕ
  | [] => some 0
  | [last] => if isHextet last then some 1 else if isIPv4 last then some 2 else none
  | piece :: pieces => if isHextet piece then (width pieces).map (· + 1) else none

/-- The pieces between colons; an empty text has none. -/
def run (text : Text) : List Text := if text = [] then [] else text.splitOn ':'

/-- Eight groups, or at most seven around one `::`. -/
def isGrouped (text : Text) : Bool :=
  match splitPair text with
  | [whole] => width (run whole) == some 8
  | [head, rest] =>
    (run head).all isHextet && (width (run rest)).any fun w => (run head).length + w ≤ 7
  | _ => false

def isZoneChar (c : Char) : Bool := c.isAlphanum || c == '-' || c == '.' || c == ':'

/-- No zone index, or a non-empty one. -/
def isZone : Text → Bool
  | [] => true
  | c :: zone => c == '%' && !zone.isEmpty && zone.all isZoneChar

def isIPv6 (text : Text) : Bool :=
  isGrouped (text.takeWhile (· ≠ '%')) && isZone (text.dropWhile (· ≠ '%'))

/-- `isIP` of `node:net`. -/
def isIP (text : Text) : ℕ := if isIPv4 text then 4 else if isIPv6 text then 6 else 0

/-- A 32-bit address, by its octets. -/
structure IPv4 where
  a : Fin 256
  b : Fin 256
  c : Fin 256
  d : Fin 256
  deriving DecidableEq

namespace IPv4

/-- The one spelling of an IPv4 address. -/
def text (address : IPv4) : Text :=
  join '.' [Nat.toDigits 10 address.a, Nat.toDigits 10 address.b, Nat.toDigits 10 address.c,
    Nat.toDigits 10 address.d]

/-- The two groups the address takes in an IPv6 spelling. -/
def groups (address : IPv4) : List ℕ :=
  [address.a * 256 + address.b, address.c * 256 + address.d]

end IPv4

abbrev Hextet := {text : Text // isHextet text = true}

namespace Hextet

theorem digits (g : Hextet) : ∀ c ∈ g.val, c ∈ hexDigits := by
  obtain ⟨text, h⟩ := g
  simp only [isHextet, Bool.and_eq_true, List.all_eq_true] at h
  exact fun c hc => (isHexDigit_iff c).1 (h.2 c hc)

theorem ne_nil (g : Hextet) : g.val ≠ [] := by
  obtain ⟨text, h⟩ := g
  rintro rfl
  simp [isHextet] at h

theorem not_mem (g : Hextet) : ':' ∉ g.val ∧ '.' ∉ g.val ∧ '%' ∉ g.val := by
  have h := fun c hc => lower_hexDigit c (g.digits c hc)
  exact ⟨fun hc => (h _ hc).2.2.2.1 rfl, fun hc => (h _ hc).2.2.2.2.1 rfl,
    fun hc => (h _ hc).2.2.2.2.2.1 rfl⟩

end Hextet

/-- A way to write an IPv6 address. -/
structure Spelling where
  /-- The groups before the compression, or all of them. -/
  head : List Hextet
  /-- The groups behind `::`. -/
  rest : Option (List Hextet)
  quad : Option IPv4
  zone : Text
  zone_ok : isZone zone = true
  fits : match rest with
    | none => head.length + 2 * quad.toList.length = 8
    | some rest => head.length + rest.length + 2 * quad.toList.length ≤ 7

/-- A 128-bit address, by its groups. -/
structure IPv6 where
  groups : List ℕ
  length_eq : groups.length = 8
  bounded : ∀ g ∈ groups, g < 2 ^ 16
  deriving DecidableEq

namespace Spelling

def pieces (groups : List Hextet) (quad : Option IPv4) : List Text :=
  groups.map Subtype.val ++ quad.toList.map IPv4.text

/-- The spelling without its zone index. -/
def body (s : Spelling) : Text :=
  match s.rest with
  | none => join ':' (pieces s.head s.quad)
  | some rest => join ':' (pieces s.head none) ++ ':' :: ':' :: join ':' (pieces rest s.quad)

def text (s : Spelling) : Text := s.body ++ s.zone

def values (groups : List Hextet) (quad : Option IPv4) : List ℕ :=
  groups.map (fun g => hexValue g.val) ++ quad.toList.flatMap IPv4.groups

/-- The eight groups written, the compression filled with zeros. -/
def groups (s : Spelling) : List ℕ :=
  match s.rest with
  | none => values s.head s.quad
  | some rest =>
    values s.head none ++
      List.replicate (8 - s.head.length - (values rest s.quad).length) 0 ++ values rest s.quad

end Spelling

/-! ## Addresses as numbers -/

/-- The 32-bit value. -/
def IPv4.value (address : IPv4) : ℕ :=
  ((address.a * 256 + address.b) * 256 + address.c) * 256 + address.d

/-- The address with a 32-bit value. -/
def IPv4.ofValue (n : ℕ) : IPv4 :=
  ⟨Fin.ofNat 256 (n / 2 ^ 24), Fin.ofNat 256 (n / 2 ^ 16), Fin.ofNat 256 (n / 2 ^ 8),
    Fin.ofNat 256 n⟩

theorem IPv4.value_injective : Function.Injective IPv4.value := by
  intro p q h
  cases p; cases q
  simp only [value, mk.injEq, Fin.ext_iff] at h ⊢
  omega

/-- The 128-bit value. -/
def IPv6.value (address : IPv6) : ℕ := Nat.ofDigits (2 ^ 16) address.groups.reverse

theorem IPv6.value_injective : Function.Injective IPv6.value := by
  intro p q h
  have hlen : p.groups.reverse.length = q.groups.reverse.length := by
    simp [p.length_eq, q.length_eq]
  have hgroups := Nat.ofDigits_inj_of_len_eq (by decide) hlen
    (fun g hg => p.bounded g (List.mem_reverse.1 hg))
    (fun g hg => q.bounded g (List.mem_reverse.1 hg)) h
  cases p; cases q
  simpa using hgroups

/-- Eight groups, by name. -/
theorem IPv6.exists_groups (address : IPv6) : ∃ g₀ g₁ g₂ g₃ g₄ g₅ g₆ g₇ : ℕ,
    address.groups = [g₀, g₁, g₂, g₃, g₄, g₅, g₆, g₇] ∧ g₀ < 2 ^ 16 ∧ g₁ < 2 ^ 16 ∧ g₂ < 2 ^ 16 ∧
      g₃ < 2 ^ 16 ∧ g₄ < 2 ^ 16 ∧ g₅ < 2 ^ 16 ∧ g₆ < 2 ^ 16 ∧ g₇ < 2 ^ 16 ∧
      address.value = g₀ * 2 ^ 112 + g₁ * 2 ^ 96 + g₂ * 2 ^ 80 + g₃ * 2 ^ 64 + g₄ * 2 ^ 48 +
        g₅ * 2 ^ 32 + g₆ * 2 ^ 16 + g₇ := by
  obtain ⟨groups, hlen, hb⟩ := address
  match groups, hlen with
  | [g₀, g₁, g₂, g₃, g₄, g₅, g₆, g₇], _ =>
    simp only [List.mem_cons, List.not_mem_nil, or_false, forall_eq_or_imp, forall_eq] at hb
    refine ⟨g₀, g₁, g₂, g₃, g₄, g₅, g₆, g₇, rfl, hb.1, hb.2.1, hb.2.2.1, hb.2.2.2.1, hb.2.2.2.2.1,
      hb.2.2.2.2.2.1, hb.2.2.2.2.2.2.1, hb.2.2.2.2.2.2.2, ?_⟩
    simp only [value, List.reverse_cons, List.reverse_nil, List.nil_append, List.cons_append,
      Nat.ofDigits_cons, Nat.ofDigits_nil]
    ring

/-- A block of addresses: those whose first `length` bits are `bits`. -/
structure Block where
  bits : ℕ
  length : ℕ

/-- Whether a value of the given width is in a block. -/
def Block.contains (block : Block) (width value : ℕ) : Bool :=
  value / 2 ^ (width - block.length) == block.bits

end FerrumNexus.Network
