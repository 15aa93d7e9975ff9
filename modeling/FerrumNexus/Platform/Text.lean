import Mathlib.Data.List.Basic

/-!
# Text, limits and roles

Lengths in UTF-16 code units, the white space `String.prototype.trim` removes,
the limits and texts that services share, and the roles of an account.
-/
namespace FerrumNexus.Platform

/-! ## Shared limits and texts -/

/-- `buffer.constants.MAX_STRING_LENGTH`: no string has more code units. -/
def MAX_STRING_LENGTH : ℕ := 512 * 1024 * 1024 - 24

/-- The most rows of one page of a listing. -/
def MAX_PAGE_SIZE : ℕ := 200

def MAX_AGENT_TOOLS : ℕ := 256

def MAX_SPEC_BYTES : ℕ := 2 * 1024 * 1024

def MAX_SPEC_EXPANDED_BYTES : ℕ := 2 * MAX_SPEC_BYTES

def LEASE_CONFLICT_MESSAGE : String :=
  "Another portal instance is updating this gateway resource right now — please retry"

def LEASE_LOST_MESSAGE : String :=
  "This change took too long and another portal instance has taken it over — please retry"

/-! ## Roles -/

/-- The four roles, in ascending order. -/
inductive Role
  | client
  | provider
  | admin
  | super_admin
  deriving DecidableEq, Repr

def Role.text : Role → String
  | .client => "client"
  | .provider => "provider"
  | .admin => "admin"
  | .super_admin => "super_admin"

def roleRank : Role → ℕ
  | .client => 0
  | .provider => 1
  | .admin => 2
  | .super_admin => 3

def roleAtLeast (role minimum : Role) : Bool := roleRank minimum ≤ roleRank role

inductive UserStatus
  | active
  | disabled
  deriving DecidableEq, Repr

/-! ## White space -/

/-- The length of a string in UTF-16 code units. -/
def utf16Length (text : String) : ℕ :=
  text.toList.foldl (fun n c => n + if 0xFFFF < c.toNat then 2 else 1) 0

/-- The characters `trim` removes. -/
def isWhiteSpace (c : Char) : Bool :=
  let n := c.toNat
  (9 ≤ n && n ≤ 13) || (0x2000 ≤ n && n ≤ 0x200A) ||
    [0x20, 0xA0, 0x1680, 0x2028, 0x2029, 0x202F, 0x205F, 0x3000, 0xFEFF].contains n

def trim (text : String) : String :=
  String.ofList ((text.toList.dropWhile isWhiteSpace).reverse.dropWhile isWhiteSpace).reverse

/-- No character between the blank and the no-break space is white space. -/
theorem isWhiteSpace_of_visible {c : Char} (hlow : 0x20 < c.toNat) (hhigh : c.toNat < 0xA0) :
    isWhiteSpace c = false := by
  unfold isWhiteSpace
  simp only [Bool.or_eq_false_iff, Bool.and_eq_false_iff, decide_eq_false_iff_not,
    List.contains_eq_mem, List.mem_cons, List.not_mem_nil, or_false]
  omega

theorem toNat_of_isAlphanum {c : Char} (h : c.isAlphanum = true) :
    0x30 ≤ c.toNat ∧ c.toNat ≤ 0x7A := by
  change ((decide ('A'.val ≤ c.val ∧ c.val ≤ 'Z'.val) || ('a'.val ≤ c.val && c.val ≤ 'z'.val)) ||
    ('0'.val ≤ c.val && c.val ≤ '9'.val)) = true at h
  simp only [Bool.or_eq_true, Bool.and_eq_true, decide_eq_true_eq, UInt32.le_iff_toNat_le] at h
  simp at h
  omega

theorem isWhiteSpace_of_isAlphanum {c : Char} (h : c.isAlphanum = true) :
    isWhiteSpace c = false := by
  have hrange := toNat_of_isAlphanum h
  exact isWhiteSpace_of_visible (by omega) (by omega)

end FerrumNexus.Platform
