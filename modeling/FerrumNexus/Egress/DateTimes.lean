import Mathlib.Data.Rat.Floor
import Mathlib.Tactic.Linarith
import Mathlib.Tactic.IntervalCases
import Mathlib.Tactic.FieldSimp
import Mathlib.Tactic.Ring

/-!
# RFC 3339 date-times

The date-times a control plane writes, the instant one names, and the instant
the portal reads. The product of a fraction and 1000 is a double's, so how a
fraction is rounded up is a parameter.
-/
namespace FerrumNexus.Egress

/-- The groups of `RFC3339_DATE_TIME`. -/
structure DateTimeFields where
  year : ℕ
  month : ℕ
  day : ℕ
  hour : ℕ
  minute : ℕ
  second : ℕ
  /-- The digits behind the point. -/
  fraction : Option (List Char)
  /-- Whether the offset is negative, its hours and its minutes; `none` for `Z`. -/
  offset : Option (Bool × ℕ × ℕ)
  deriving DecidableEq

def decimal (digits : List Char) : ℕ := Nat.ofDigitChars 10 digits 0

/-- `(?:[Zz]|([+-])(\d{2}):(\d{2}))$` -/
def readOffset : List Char → Option (Option (Bool × ℕ × ℕ))
  | [z] => if z = 'Z' ∨ z = 'z' then some none else none
  | [sign, h₁, h₂, colon, m₁, m₂] =>
    if (sign = '+' ∨ sign = '-') ∧ colon = ':' ∧ [h₁, h₂, m₁, m₂].all Char.isDigit then
      some (some (sign = '-', decimal [h₁, h₂], decimal [m₁, m₂]))
    else none
  | _ => none

/-- `(\.\d+)?` and what follows it. -/
def readFraction (text : List Char) : Option (Option (List Char) × List Char) :=
  if text.head? = some '.' then
    let digits := text.tail.takeWhile Char.isDigit
    if digits = [] then none else some (some digits, text.tail.dropWhile Char.isDigit)
  else some (none, text)

/-- `RFC3339_DATE_TIME.exec`. -/
def exec (text : List Char) : Option DateTimeFields :=
  let slice (start length : ℕ) := (text.drop start).take length
  let fields := [slice 0 4, slice 5 2, slice 8 2, slice 11 2, slice 14 2, slice 17 2]
  if 19 ≤ text.length ∧ fields.all (·.all Char.isDigit) ∧ slice 4 1 = ['-'] ∧ slice 7 1 = ['-'] ∧
      (slice 10 1 = ['T'] ∨ slice 10 1 = ['t']) ∧ slice 13 1 = [':'] ∧ slice 16 1 = [':'] then do
    let (fraction, rest) ← readFraction (text.drop 19)
    let offset ← readOffset rest
    some ⟨decimal (slice 0 4), decimal (slice 5 2), decimal (slice 8 2), decimal (slice 11 2),
      decimal (slice 14 2), decimal (slice 17 2), fraction, offset⟩
  else none

def isLeap (year : ℕ) : Bool := year % 4 == 0 && (year % 100 != 0 || year % 400 == 0)

def monthDays (leap : Bool) : List ℕ :=
  [31, if leap then 29 else 28, 31, 30, 31, 30, 31, 31, 30, 31, 30, 31]

/-- The ranges `isRfc3339DateTime` checks. A second of 60 is a leap second. -/
def DateTimeFields.inRange (f : DateTimeFields) : Bool :=
  let days := if f.month = 0 then 0 else (monthDays (isLeap f.year)).getD (f.month - 1) 0
  1 ≤ f.day && f.day ≤ days && f.hour ≤ 23 && f.minute ≤ 59 && f.second ≤ 60 &&
    f.offset.all fun o => o.2.1 ≤ 23 && o.2.2 ≤ 59

def isRfc3339DateTime (text : List Char) : Bool := (exec text).any DateTimeFields.inRange

/-! ## The calendar -/

/-- Days from 1970-01-01 to the first day of a year. -/
def daysBeforeYear (year : ℕ) : ℤ :=
  365 * year + (year + 3) / 4 - (year + 99) / 100 + (year + 399) / 400 - 719528

def daysBeforeMonth (leap : Bool) (month : ℕ) : ℕ := ((monthDays leap).take (month - 1)).sum

/-- Days from 1970-01-01 to a day of the calendar. -/
def dayNumber (year month day : ℕ) : ℤ :=
  daysBeforeYear year + daysBeforeMonth (isLeap year) month + day - 1

/-- `Date.UTC(year, month - 1, …)`: a year below 100 is one of the 1900s. -/
def dateUTC (year month day hour minute second : ℕ) : ℤ :=
  let full := if year ≤ 99 then 1900 + year else year
  (((dayNumber full month day * 24 + hour) * 60 + minute) * 60 + second) * 1000

def DateTimeFields.offsetMinutes (f : DateTimeFields) : ℤ :=
  match f.offset with
  | none => 0
  | some (negative, hours, minutes) =>
    (if negative then -1 else 1) * ((hours : ℤ) * 60 + minutes)

/-- The fraction of a second a run of digits stands for. -/
def fractionOf (digits : List Char) : ℚ := decimal digits / 10 ^ digits.length

/-- The instant the fields name, in epoch milliseconds. -/
def DateTimeFields.instant (f : DateTimeFields) : ℚ :=
  ((((dayNumber f.year f.month f.day * 24 + f.hour) * 60 + f.minute) * 60 + f.second) * 1000 : ℤ) +
    1000 * (f.fraction.elim 0 fractionOf) - 60000 * f.offsetMinutes

section Millis

variable (ceilMillis : List Char → ℤ)

/-- The instant of a date-time in epoch milliseconds; `none` is `NaN`. -/
def rfc3339Millis (text : List Char) : Option ℤ :=
  (exec text).map fun f =>
    dateUTC f.year f.month f.day f.hour f.minute f.second + f.fraction.elim 0 ceilMillis -
      f.offsetMinutes * 60000

end Millis

/-- The month offsets of two years differ by the leap day at most. -/
theorem daysBeforeMonth_le (leap other : Bool) (month : ℕ) :
    daysBeforeMonth leap month ≤ daysBeforeMonth other month + 1 := by
  have hle : ∀ n ≤ 12, ((monthDays leap).take n).sum ≤ ((monthDays other).take n).sum + 1 := by
    cases leap <;> cases other <;> decide
  unfold daysBeforeMonth
  rcases Nat.le_total (month - 1) 12 with h | h
  · exact hle _ h
  · have hlen (b : Bool) : (monthDays b).length ≤ month - 1 := h
    rw [List.take_of_length_le (hlen leap), List.take_of_length_le (hlen other)]
    exact hle 12 le_rfl

/-- Reading a two-digit year as one of the 1900s only moves it forward. -/
theorem dayNumber_le (year month day : ℕ) :
    dayNumber year month day ≤
      dayNumber (if year ≤ 99 then 1900 + year else year) month day := by
  split_ifs
  · have hmonth := daysBeforeMonth_le (isLeap year) (isLeap (1900 + year)) month
    unfold dayNumber daysBeforeYear
    push_cast
    omega
  · exact le_rfl

/-- The instant read is never earlier than the instant written, up to the rounding of a double. -/
theorem instant_le_rfc3339Millis {ceilMillis : List Char → ℤ}
    (hceil : ∀ digits, 1000 * fractionOf digits ≤ ceilMillis digits + 1) {text : List Char}
    {f : DateTimeFields} (h : exec text = some f) {millis : ℤ}
    (hm : rfc3339Millis ceilMillis text = some millis) : f.instant ≤ millis + 1 := by
  simp only [rfc3339Millis, h, Option.map_some, Option.some.injEq] at hm
  subst hm
  have hday := dayNumber_le f.year f.month f.day
  have hfraction : 1000 * f.fraction.elim 0 fractionOf ≤ (f.fraction.elim 0 ceilMillis : ℤ) + 1 := by
    cases f.fraction with
    | none => simp
    | some digits => exact hceil digits
  have hutc : (((dayNumber f.year f.month f.day * 24 + f.hour) * 60 + f.minute) * 60 + f.second) *
      1000 ≤ dateUTC f.year f.month f.day f.hour f.minute f.second := by
    unfold dateUTC
    dsimp only
    omega
  have hutc' : ((((dayNumber f.year f.month f.day * 24 + f.hour) * 60 + f.minute) * 60 + f.second) *
      1000 : ℤ) ≤ ((dateUTC f.year f.month f.day f.hour f.minute f.second : ℤ) : ℚ) := by
    exact_mod_cast hutc
  unfold DateTimeFields.instant
  push_cast at hutc' ⊢
  linarith

end FerrumNexus.Egress
