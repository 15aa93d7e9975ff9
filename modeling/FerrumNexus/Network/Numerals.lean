import Mathlib.Data.Nat.Digits.Defs
import Mathlib.Data.Nat.Digits.Lemmas
import Mathlib.Data.List.Basic
import Mathlib.Tactic.IntervalCases

/-!
# Numerals in a text

A text is a list of characters. Hexadecimal numerals are read in either letter
case and with leading zeros; the numeral of a number is `Nat.toDigits`.
-/
namespace FerrumNexus.Network

abbrev Text := List Char

def hexDigits : Text := "0123456789abcdefABCDEF".toList

def isHexDigit (c : Char) : Bool := hexDigits.contains c

/-- The digit a character stands for. -/
def hexDigit (c : Char) : ℕ :=
  if c.toNat ≤ 57 then c.toNat - 48 else if 97 ≤ c.toNat then c.toNat - 87 else c.toNat - 55

def hexValue (text : Text) : ℕ := text.foldl (fun n c => 16 * n + hexDigit c) 0

/-- `toLowerCase`, on ASCII letters. -/
def lower (text : Text) : Text := text.map Char.toLower

theorem isHexDigit_iff (c : Char) : isHexDigit c = true ↔ c ∈ hexDigits := by
  simp [isHexDigit]

theorem isHexDigit_digitChar {n : ℕ} (h : n < 16) : isHexDigit n.digitChar = true := by
  interval_cases n <;> decide

theorem hexDigit_digitChar {n : ℕ} (h : n < 16) : hexDigit n.digitChar = n := by
  interval_cases n <;> decide

theorem toLower_digitChar {n : ℕ} (h : n < 16) : n.digitChar.toLower = n.digitChar := by
  interval_cases n <;> decide

/-- Lower case changes neither what a hexadecimal digit is nor its value. -/
theorem lower_hexDigit : ∀ c ∈ hexDigits, c.toLower ∈ hexDigits ∧ hexDigit c.toLower = hexDigit c ∧
    hexDigit c < 16 ∧ c ≠ ':' ∧ c ≠ '.' ∧ c ≠ '%' ∧ c ≠ '[' ∧ c ≠ ']' ∧ c ≠ 'l' := by
  rw [← List.forall_iff_forall_mem]
  decide

theorem hexValue_append (text more : Text) :
    hexValue (text ++ more) = more.foldl (fun n c => 16 * n + hexDigit c) (hexValue text) := by
  simp [hexValue]

theorem hexValue_lower (text : Text) (h : ∀ c ∈ text, isHexDigit c = true) :
    hexValue (lower text) = hexValue text := by
  induction text using List.reverseRecOn with
  | nil => rfl
  | append_singleton text c ih =>
    have hc := lower_hexDigit c ((isHexDigit_iff c).1 (h c (by simp)))
    have ih := ih fun x hx => h x (by simp [hx])
    simp only [lower, List.map_append, List.map_cons, List.map_nil, hexValue_append,
      List.foldl_cons, List.foldl_nil] at ih ⊢
    rw [ih, hc.2.1]

theorem hexValue_lt (text : Text) (h : ∀ c ∈ text, isHexDigit c = true) :
    hexValue text < 16 ^ text.length := by
  induction text using List.reverseRecOn with
  | nil => simp [hexValue]
  | append_singleton text c ih =>
    have hc := (lower_hexDigit c ((isHexDigit_iff c).1 (h c (by simp)))).2.2.1
    have ih := ih fun x hx => h x (by simp [hx])
    simp only [hexValue_append, List.foldl_cons, List.foldl_nil, List.length_append,
      List.length_singleton, pow_succ]
    omega

/-- Reading a hexadecimal numeral back. -/
@[simp] theorem hexValue_toDigits (n : ℕ) : hexValue (Nat.toDigits 16 n) = n := by
  induction n using Nat.base_induction 16 (by decide) with
  | single m hm => simp [Nat.toDigits_of_lt_base hm, hexValue, hexDigit_digitChar hm]
  | digit m k hk hm ih =>
    rw [← Nat.toDigits_append_toDigits (by decide) hm hk, hexValue_append, ih,
      Nat.toDigits_of_lt_base hk]
    simp [hexDigit_digitChar hk]

theorem digitChars_toDigits (n : ℕ) :
    ∀ c ∈ Nat.toDigits 16 n, isHexDigit c = true ∧ c.toLower = c := by
  induction n using Nat.base_induction 16 (by decide) with
  | single m hm =>
    simp [Nat.toDigits_of_lt_base hm, isHexDigit_digitChar hm, toLower_digitChar hm]
  | digit m k hk hm ih =>
    rw [← Nat.toDigits_append_toDigits (by decide) hm hk, Nat.toDigits_of_lt_base hk]
    intro c hc
    rcases List.mem_append.1 hc with hc | hc
    · exact ih c hc
    · rw [List.mem_singleton.1 hc]
      exact ⟨isHexDigit_digitChar hk, toLower_digitChar hk⟩

theorem toDigits_sixteen_injective : Function.Injective (Nat.toDigits 16) := by
  intro m n h
  have hv := congrArg hexValue h
  simpa using hv

theorem toDigits_ten_injective : Function.Injective (Nat.toDigits 10) := by
  intro m n h
  have hv := congrArg (fun text => Nat.ofDigitChars 10 text 0) h
  simpa using hv

theorem isDigit_toDigits (n : ℕ) (c : Char) (h : c ∈ Nat.toDigits 10 n) : c.isDigit = true :=
  Nat.isDigit_of_mem_toDigits (by decide) (by decide) h

end FerrumNexus.Network
