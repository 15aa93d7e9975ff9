import Mathlib.Tactic

/-!
# Base64

Bytes are cut into groups of six bits, each written as one character of the
alphabet, and the last group of characters is filled up with padding. A reader
stops at the padding, takes the URL alphabet as well, and passes over characters
of neither.
-/
namespace FerrumNexus.Formats

/-- The alphabet, by the six bits a character stands for. -/
def digit (n : ℕ) : Char :=
  if n < 26 then Char.ofNat (65 + n)
  else if n < 52 then Char.ofNat (71 + n)
  else if n < 62 then Char.ofNat (n - 4)
  else if n = 62 then '+'
  else '/'

def digitValue (c : Char) : Option ℕ :=
  if 'A' ≤ c ∧ c ≤ 'Z' then some (c.toNat - 65)
  else if 'a' ≤ c ∧ c ≤ 'z' then some (c.toNat - 71)
  else if '0' ≤ c ∧ c ≤ '9' then some (c.toNat + 4)
  else if c = '+' ∨ c = '-' then some 62
  else if c = '/' ∨ c = '_' then some 63
  else none

/-- The groups of six bits, the last one filled with zeros. -/
def sextets : List UInt8 → List ℕ
  | [] => []
  | [a] => [a.toNat / 4, a.toNat % 4 * 16]
  | [a, b] => [a.toNat / 4, a.toNat % 4 * 16 + b.toNat / 16, b.toNat % 16 * 4]
  | a :: b :: c :: bytes =>
    a.toNat / 4 :: (a.toNat % 4 * 16 + b.toNat / 16) :: (b.toNat % 16 * 4 + c.toNat / 64) ::
      (c.toNat % 64) :: sextets bytes

def bytesOf : List ℕ → List UInt8
  | w :: x :: y :: z :: rest =>
    UInt8.ofNat (w * 4 + x / 16) :: UInt8.ofNat (x % 16 * 16 + y / 4) ::
      UInt8.ofNat (y % 4 * 64 + z) :: bytesOf rest
  | [w, x, y] => [UInt8.ofNat (w * 4 + x / 16), UInt8.ofNat (x % 16 * 16 + y / 4)]
  | [w, x] => [UInt8.ofNat (w * 4 + x / 16)]
  | _ => []

/-- `bytes.toString('base64')`. -/
def encodeBase64 (bytes : List UInt8) : List Char :=
  (sextets bytes).map digit ++ List.replicate ((3 - bytes.length % 3) % 3) '='

/-- `Buffer.from(text, 'base64')`. -/
def decodeBase64 (text : List Char) : List UInt8 :=
  bytesOf ((text.takeWhile (· ≠ '=')).filterMap digitValue)

theorem digitValue_digit : ∀ n < 64, digitValue (digit n) = some n := by decide

theorem digit_ne_padding : ∀ n < 64, digit n ≠ '=' := by decide

theorem sextets_lt (bytes : List UInt8) : ∀ n ∈ sextets bytes, n < 64 := by
  induction bytes using sextets.induct with
  | case1 => simp [sextets]
  | case2 a =>
    have ha := a.toNat_lt
    simp only [sextets, List.mem_cons, List.not_mem_nil, or_false]
    omega
  | case3 a b =>
    have ha := a.toNat_lt
    have hb := b.toNat_lt
    simp only [sextets, List.mem_cons, List.not_mem_nil, or_false]
    omega
  | case4 a b c bytes ih =>
    have ha := a.toNat_lt
    have hb := b.toNat_lt
    have hc := c.toNat_lt
    simp only [sextets, List.mem_cons]
    rintro n (rfl | rfl | rfl | rfl | hn)
    · omega
    · omega
    · omega
    · omega
    · exact ih n hn

theorem uint8_ofNat_eq {a : UInt8} {n : ℕ} (h : n = a.toNat) : UInt8.ofNat n = a := by
  rw [h, UInt8.ofNat_toNat]

theorem bytesOf_sextets (bytes : List UInt8) : bytesOf (sextets bytes) = bytes := by
  induction bytes using sextets.induct with
  | case1 => rfl
  | case2 a =>
    simp only [sextets, bytesOf]
    congr 1
    exact uint8_ofNat_eq (by omega)
  | case3 a b =>
    have hb := b.toNat_lt
    simp only [sextets, bytesOf]
    congr 1
    · exact uint8_ofNat_eq (by omega)
    congr 1
    exact uint8_ofNat_eq (by omega)
  | case4 a b c bytes ih =>
    have hb := b.toNat_lt
    have hc := c.toNat_lt
    simp only [sextets, bytesOf, ih]
    congr 1
    · exact uint8_ofNat_eq (by omega)
    congr 1
    · exact uint8_ofNat_eq (by omega)
    congr 1
    exact uint8_ofNat_eq (by omega)

theorem decode_encodeBase64 (bytes : List UInt8) : decodeBase64 (encodeBase64 bytes) = bytes := by
  have hdigits : ∀ groups : List ℕ, (∀ n ∈ groups, n < 64) → ∀ k,
      ((groups.map digit ++ List.replicate k '=').takeWhile (· ≠ '=')).filterMap digitValue =
        groups := by
    intro groups hlt k
    induction groups with
    | nil => cases k <;> simp [List.replicate_succ]
    | cons n groups ih =>
      have hn : n < 64 := hlt n List.mem_cons_self
      have hrest := ih fun m hm => hlt m (List.mem_cons_of_mem n hm)
      simpa [digit_ne_padding n hn, digitValue_digit n hn] using hrest
  rw [decodeBase64, encodeBase64, hdigits _ (sextets_lt bytes), bytesOf_sextets]

theorem encodeBase64_ne_nil {bytes : List UInt8} (h : bytes ≠ []) : encodeBase64 bytes ≠ [] := by
  intro hnil
  apply h
  rw [← decode_encodeBase64 bytes, hnil]
  rfl

end FerrumNexus.Formats
