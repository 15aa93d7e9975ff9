import FerrumNexus.Sequences.OrderedMap

/-!
# An LRU cache with two bounds

`LruCache` keeps its entries in a map, whose order is that of insertion, and
puts an entry back at its end whenever it is used. Every entry has a size, and
the total is counted as entries come and go, in doubles. As long as no total is
rounded, the cache holds what a list ordered by last use holds: a `set` that is
admitted keeps the longest end of that list that is within both bounds.
-/
namespace FerrumNexus.Runtime

open Sequences

/-! ## Integers as doubles -/

/-- The double nearest to an integer, the even one of two, where it does not overflow. -/
def toDouble (n : ℤ) : ℤ :=
  -- how far apart the doubles are there: they have 53 bits
  let unit := 2 ^ (n.natAbs.log2 - 52)
  let below := n.natAbs / unit
  let rest := n.natAbs % unit
  let nearest := if 2 * rest < unit ∨ (2 * rest = unit ∧ below % 2 = 0) then below else below + 1
  n.sign * (nearest * unit : ℕ)

/-- An integer that is a double. -/
def IsDouble (n : ℤ) : Prop := toDouble n = n ∧ n.natAbs.log2 < 1024

structure Entry (V : Type) where
  value : V
  size : ℤ

/-- `LruCacheOptions`. -/
structure LruCacheOptions where
  maxEntries : ℤ
  maxBytes : ℤ

structure LruCache (K V : Type) where
  options : LruCacheOptions
  entries : OrderedMap K (Entry V)
  bytes : ℤ
  hits : ℕ
  misses : ℕ

namespace LruCache

variable {K V : Type} [DecidableEq K]

/-- `constructor`. -/
def create (options : LruCacheOptions) : LruCache K V := ⟨options, .empty, 0, 0, 0⟩

def get (cache : LruCache K V) (key : K) : Option V × LruCache K V :=
  match cache.entries.get key with
  | none => (none, { cache with misses := cache.misses + 1 })
  | some entry => (some entry.value, { cache with
      hits := cache.hits + 1
      entries := (cache.entries.delete key).set key entry })

/-- The bounds the loop of `set` evicts until they hold. -/
def exceeded (cache : LruCache K V) : Bool :=
  cache.options.maxEntries < cache.entries.size || cache.options.maxBytes < cache.bytes

/-- One turn of that loop, for the oldest key. -/
def evictOldest (cache : LruCache K V) (oldest : K) : LruCache K V where
  options := cache.options
  entries := cache.entries.delete oldest
  bytes := match cache.entries.get oldest with
    | some evicted => toDouble (cache.bytes - evicted.size)
    | none => cache.bytes
  hits := cache.hits
  misses := cache.misses

/-- The loop: every turn removes an entry, or there is none left. -/
def evict : ℕ → LruCache K V → LruCache K V
  | 0, cache => cache
  | turns + 1, cache =>
    if cache.exceeded then
      match cache.entries.entries.head? with
      | none => cache
      | some oldest => evict turns (cache.evictOldest oldest.1)
    else cache

/-- Whether `set` stores a value of this size. -/
def admits (options : LruCacheOptions) (size : ℤ) : Bool :=
  !(options.maxEntries ≤ 0 || options.maxBytes ≤ 0 || options.maxBytes < size || size < 0)

/-- Without the entry of a key. -/
def drop (cache : LruCache K V) (key : K) : LruCache K V :=
  match cache.entries.get key with
  | none => cache
  | some existing => { cache with
      entries := cache.entries.delete key
      bytes := toDouble (cache.bytes - existing.size) }

def store (cache : LruCache K V) (key : K) (value : V) (size : ℤ) : LruCache K V :=
  { cache with
    entries := cache.entries.set key ⟨value, size⟩
    bytes := toDouble (cache.bytes + size) }

def set (cache : LruCache K V) (key : K) (value : V) (size : ℤ) : LruCache K V :=
  let dropped := cache.drop key
  if admits cache.options size then
    let stored := dropped.store key value size
    stored.evict stored.entries.size
  else dropped

def clear (cache : LruCache K V) : LruCache K V := { cache with entries := .empty, bytes := 0 }

end LruCache

/-! ## The list ordered by last use -/

/-- A call of the cache. -/
inductive Call (K V : Type)
  | get (key : K)
  | set (key : K) (value : V) (size : ℤ)
  | clear

section Reference

variable {K V : Type} [DecidableEq K]

/-- Keys, values and sizes, the least recently used first. -/
abbrev Recency (K V : Type) := List (K × Entry V)

def totalSize (recency : Recency K V) : ℤ := (recency.map fun entry => entry.2.size).sum

def Fits (options : LruCacheOptions) (recency : Recency K V) : Prop :=
  recency.length ≤ options.maxEntries ∧ totalSize recency ≤ options.maxBytes

instance (options : LruCacheOptions) (recency : Recency K V) : Decidable (Fits options recency) :=
  inferInstanceAs (Decidable (_ ∧ _))

/-- The longest end of a list that fits. -/
def longestFit (options : LruCacheOptions) (recency : Recency K V) : Recency K V :=
  (recency.tails.find? fun suffix => Fits options suffix).getD []

/-- What one call does to the list. -/
def touch (options : LruCacheOptions) (recency : Recency K V) : Call K V → Recency K V
  | .get key =>
    match recency.find? fun entry => entry.1 = key with
    | none => recency
    | some used => OrderedMap.without recency key ++ [used]
  | .set key value size =>
    if LruCache.admits options size then
      longestFit options (OrderedMap.without recency key ++ [(key, ⟨value, size⟩)])
    else OrderedMap.without recency key
  | .clear => []

/-- What one call does to the cache. -/
def LruCache.perform (cache : LruCache K V) : Call K V → LruCache K V
  | .get key => (cache.get key).2
  | .set key value size => cache.set key value size
  | .clear => cache.clear

/-- The cache after some calls, and the list. -/
def performed (options : LruCacheOptions) (calls : List (Call K V)) : LruCache K V :=
  calls.foldl LruCache.perform (.create options)

def touched (options : LruCacheOptions) (calls : List (Call K V)) : Recency K V :=
  calls.foldl (touch options) []

/-- A call rounds no total: neither that of the entries without the key's own, nor with the new
entry, nor with the oldest ones gone. -/
def RoundsNothing (options : LruCacheOptions) (recency : Recency K V) : Call K V → Prop
  | .set key value size =>
    IsDouble (totalSize (OrderedMap.without recency key)) ∧
      (LruCache.admits options size = true → ∀ suffix,
        suffix <:+ OrderedMap.without recency key ++ [(key, ⟨value, size⟩)] →
          IsDouble (totalSize suffix))
  | _ => True

end Reference

/-! ## The cache holds the list -/

section Lists

variable {K V : Type} {options : LruCacheOptions}

@[simp] theorem totalSize_append (xs ys : Recency K V) :
    totalSize (xs ++ ys) = totalSize xs + totalSize ys := by
  simp [totalSize]

@[simp] theorem longestFit_nil : longestFit options ([] : Recency K V) = [] := by
  unfold longestFit
  by_cases h : Fits options ([] : Recency K V) <;> simp [h]

theorem longestFit_cons (entry : K × Entry V) (rest : Recency K V) :
    longestFit options (entry :: rest) =
      if Fits options (entry :: rest) then entry :: rest else longestFit options rest := by
  unfold longestFit
  by_cases h : Fits options (entry :: rest) <;> simp [h]

theorem longestFit_suffix (recency : Recency K V) : longestFit options recency <:+ recency := by
  induction recency with
  | nil => simp
  | cons entry rest ih =>
    rw [longestFit_cons]
    split
    · exact List.suffix_rfl
    · exact ih.trans (List.suffix_cons entry rest)

/-- No end of the list that is longer fits. -/
theorem longestFit_longest {recency longer : Recency K V} (h : longer <:+ recency)
    (hlonger : (longestFit options recency).length < longer.length) : ¬ Fits options longer := by
  induction recency with
  | nil =>
    rw [List.suffix_nil] at h
    subst h
    simp at hlonger
  | cons entry rest ih =>
    rw [longestFit_cons] at hlonger
    split at hlonger
    · have := h.length_le
      omega
    · rename_i hfits
      rcases List.suffix_cons_iff.mp h with rfl | hrest
      · exact hfits
      · exact ih hrest hlonger

/-- It fits itself, and is no shorter than any that does. -/
theorem longestFit_fits {recency suffix : Recency K V} (h : suffix <:+ recency)
    (hfits : Fits options suffix) :
    Fits options (longestFit options recency) ∧
      suffix.length ≤ (longestFit options recency).length := by
  constructor
  · induction recency with
    | nil =>
      rw [List.suffix_nil] at h
      subst h
      rwa [longestFit_nil]
    | cons entry rest ih =>
      rw [longestFit_cons]
      split
      · assumption
      · rename_i hnot
        rcases List.suffix_cons_iff.mp h with rfl | hrest
        · exact absurd hfits hnot
        · exact ih hrest
  · by_contra hlonger
    exact longestFit_longest h (by omega) hfits

end Lists

section Refinement

variable {K V : Type} [DecidableEq K] {options : LruCacheOptions}

/-- The counter is the total of the sizes. -/
structure Counted (options : LruCacheOptions) (cache : LruCache K V) : Prop where
  options : cache.options = options
  bytes : cache.bytes = totalSize cache.entries.entries

/-- An entry that is found accounts for its size. -/
theorem totalSize_without {map : OrderedMap K (Entry V)} {key : K} {entry : Entry V}
    (h : map.get key = some entry) :
    totalSize (OrderedMap.without map.entries key) = totalSize map.entries - entry.size := by
  obtain ⟨entries, distinct⟩ := map
  simp only [OrderedMap.get] at h
  induction entries with
  | nil => simp at h
  | cons first rest ih =>
    rw [List.map_cons, List.nodup_cons] at distinct
    by_cases hkey : first.1 = key
    · subst hkey
      simp only [List.find?_cons_of_pos, decide_true, Option.map_some, Option.some.injEq] at h
      have hrest := OrderedMap.without_of_not_mem distinct.1
      have hhead : OrderedMap.without (first :: rest) first.1 = OrderedMap.without rest first.1 := by
        simp [OrderedMap.without]
      rw [hhead, hrest, ← h]
      simp [totalSize]
    · have hkept : OrderedMap.without (first :: rest) key =
          first :: OrderedMap.without rest key := by
        simp [OrderedMap.without, hkey]
      rw [List.find?_cons_of_neg (by simpa using hkey)] at h
      have htail := ih distinct.2 h
      rw [hkept]
      simp only [totalSize, List.map_cons, List.sum_cons] at htail ⊢
      omega

variable {cache : LruCache K V} {kept recency : Recency K V}

theorem Counted.drop (h : Counted options cache) {key : K}
    (hexact : IsDouble (totalSize (OrderedMap.without cache.entries.entries key))) :
    Counted options (cache.drop key) ∧
      (cache.drop key).entries.entries = OrderedMap.without cache.entries.entries key := by
  unfold LruCache.drop
  cases hget : cache.entries.get key with
  | none =>
    exact ⟨h, (OrderedMap.without_of_not_mem (OrderedMap.get_eq_none.mp hget)).symm⟩
  | some existing =>
    refine ⟨⟨h.options, ?_⟩, rfl⟩
    show toDouble (cache.bytes - existing.size) =
      totalSize (OrderedMap.without cache.entries.entries key)
    rw [h.bytes, ← totalSize_without hget, hexact.1]

omit [DecidableEq K] in
theorem Counted.exceeded_iff (h : Counted options cache) :
    cache.exceeded = true ↔ ¬ Fits options cache.entries.entries := by
  simp only [LruCache.exceeded, Fits, OrderedMap.size, h.options, h.bytes, Bool.or_eq_true,
    decide_eq_true_eq, not_and_or, not_le]

/-- One turn of the loop takes the oldest entry off. -/
theorem Counted.evictOldest (h : Counted options cache) {oldest : K × Entry V} {rest : Recency K V}
    (hentries : cache.entries.entries = oldest :: rest) (hexact : IsDouble (totalSize rest)) :
    Counted options (cache.evictOldest oldest.1) ∧
      (cache.evictOldest oldest.1).entries.entries = rest := by
  have hrest : (cache.evictOldest oldest.1).entries.entries = rest :=
    OrderedMap.delete_oldest hentries
  have hget : cache.entries.get oldest.1 = some oldest.2 := by
    simp [OrderedMap.get, hentries]
  have htotal : totalSize (oldest :: rest) - oldest.2.size = totalSize rest := by
    simp [totalSize]
  refine ⟨⟨h.options, ?_⟩, hrest⟩
  rw [hrest]
  simp only [LruCache.evictOldest, hget, h.bytes, hentries, htotal, hexact.1]

theorem Counted.evict (h : Counted options cache)
    (hexact : ∀ suffix, suffix <:+ cache.entries.entries → IsDouble (totalSize suffix)) {turns : ℕ}
    (hturns : cache.entries.size ≤ turns) :
    Counted options (cache.evict turns) ∧
      (cache.evict turns).entries.entries = longestFit options cache.entries.entries := by
  induction turns generalizing cache with
  | zero =>
    have hnil : cache.entries.entries = [] := List.eq_nil_of_length_eq_zero (by
      unfold OrderedMap.size at hturns
      omega)
    exact ⟨h, by rw [LruCache.evict, hnil, longestFit_nil]⟩
  | succ turns ih =>
    rw [LruCache.evict]
    cases hentries : cache.entries.entries with
    | nil =>
      simp only [List.head?_nil, longestFit_nil, ite_self]
      exact ⟨h, hentries⟩
    | cons oldest rest =>
      simp only [List.head?_cons]
      rw [longestFit_cons, ← hentries]
      by_cases hfits : Fits options cache.entries.entries
      · have hnot : ¬ cache.exceeded = true := fun hex => h.exceeded_iff.mp hex hfits
        rw [if_neg hnot, if_pos hfits]
        exact ⟨h, rfl⟩
      · rw [if_pos (h.exceeded_iff.mpr hfits), if_neg hfits]
        have hsuffix : rest <:+ cache.entries.entries := by
          rw [hentries]
          exact List.suffix_cons oldest rest
        obtain ⟨hcounted, hrest⟩ := h.evictOldest hentries (hexact rest hsuffix)
        have hsize : (cache.evictOldest oldest.1).entries.size ≤ turns := by
          unfold OrderedMap.size at hturns ⊢
          rw [hrest]
          rw [hentries, List.length_cons] at hturns
          omega
        have hends : ∀ suffix, suffix <:+ (cache.evictOldest oldest.1).entries.entries →
            IsDouble (totalSize suffix) := by
          rw [hrest]
          exact fun suffix hend => hexact suffix (hend.trans hsuffix)
        have hloop := ih hcounted hends hsize
        rwa [hrest] at hloop

theorem Counted.set (h : Counted options cache) {key : K} {value : V} {size : ℤ}
    (hexact : RoundsNothing options cache.entries.entries (.set key value size)) :
    Counted options (cache.set key value size) ∧
      (cache.set key value size).entries.entries =
        touch options cache.entries.entries (.set key value size) := by
  obtain ⟨hdropped, hwithout⟩ := h.drop hexact.1
  unfold LruCache.set touch
  simp only [h.options]
  split
  · rename_i hadmits
    have hends := hexact.2 hadmits
    have hstored : ((cache.drop key).store key value size).entries.entries =
        OrderedMap.without cache.entries.entries key ++ [(key, ⟨value, size⟩)] := by
      have hnew : key ∉ (cache.drop key).entries.entries.map Prod.fst := by
        rw [hwithout]
        exact OrderedMap.key_not_mem_without _ _
      rw [← hwithout]
      exact OrderedMap.set_of_new hnew _
    have hcounted : Counted options ((cache.drop key).store key value size) := by
      constructor
      · exact hdropped.options
      · have htotal : (cache.drop key).bytes + size = totalSize
            (OrderedMap.without cache.entries.entries key ++ [(key, ⟨value, size⟩)]) := by
          rw [hdropped.bytes, hwithout]
          simp [totalSize]
        show toDouble ((cache.drop key).bytes + size) = _
        rw [hstored, htotal, (hends _ List.suffix_rfl).1]
    rw [← hstored] at hends ⊢
    exact hcounted.evict hends le_rfl
  · exact ⟨hdropped, hwithout⟩

theorem Counted.get (h : Counted options cache) (key : K) :
    Counted options (cache.get key).2 ∧
      (cache.get key).2.entries.entries = touch options cache.entries.entries (.get key) := by
  unfold LruCache.get touch
  cases hfind : cache.entries.entries.find? (fun entry => entry.1 = key) with
  | none =>
    have hget : cache.entries.get key = none := by rw [OrderedMap.get, hfind]; rfl
    simp only [hget, hfind, and_true]
    exact ⟨h.options, h.bytes⟩
  | some used =>
    have hget : cache.entries.get key = some used.2 := by rw [OrderedMap.get, hfind]; rfl
    have hkey : used.1 = key := by simpa using List.find?_some hfind
    have hentries : ((cache.entries.delete key).set key used.2).entries =
        OrderedMap.without cache.entries.entries key ++ [used] := by
      rw [OrderedMap.set_delete_entries, ← hkey]
    simp only [hget, hfind]
    refine ⟨⟨h.options, ?_⟩, hentries⟩
    show cache.bytes = totalSize ((cache.entries.delete key).set key used.2).entries
    rw [hentries, totalSize_append, totalSize_without hget, h.bytes]
    simp [totalSize]

theorem Counted.perform (h : Counted options cache) {call : Call K V}
    (hexact : RoundsNothing options cache.entries.entries call) :
    Counted options (cache.perform call) ∧
      (cache.perform call).entries.entries = touch options cache.entries.entries call := by
  cases call with
  | get key => exact h.get key
  | set key value size => exact h.set hexact
  | clear => exact ⟨⟨h.options, rfl⟩, rfl⟩

/-- What the list satisfies between two calls. A bound below zero holds nothing. -/
structure Within (options : LruCacheOptions) (recency : Recency K V) : Prop where
  sizes : ∀ entry ∈ recency, 0 ≤ entry.2.size
  count : (recency.length : ℤ) ≤ max options.maxEntries 0
  bytes : totalSize recency ≤ max options.maxBytes 0

omit [DecidableEq K] in
theorem Within.nil : Within options ([] : Recency K V) := by
  constructor <;> simp [totalSize]

omit [DecidableEq K] in
theorem totalSize_sublist (h : kept.Sublist recency)
    (hsizes : ∀ entry ∈ recency, 0 ≤ entry.2.size) : totalSize kept ≤ totalSize recency := by
  induction h with
  | slnil => exact le_rfl
  | cons entry h ih =>
    have htail := ih fun other hother => hsizes other (List.mem_cons_of_mem entry hother)
    have hhead := hsizes entry List.mem_cons_self
    simp only [totalSize, List.map_cons, List.sum_cons] at htail ⊢
    omega
  | cons_cons entry h ih =>
    have htail := ih fun other hother => hsizes other (List.mem_cons_of_mem entry hother)
    simp only [totalSize, List.map_cons, List.sum_cons] at htail ⊢
    omega

omit [DecidableEq K] in
/-- Some of the entries, in whatever order, are within the bounds of all. -/
theorem Within.of_subperm (h : Within options recency) (hkept : kept.Subperm recency) :
    Within options kept := by
  obtain ⟨sorted, hperm, hsublist⟩ := hkept
  constructor
  · intro entry hentry
    exact h.sizes entry (hsublist.subset (hperm.mem_iff.mpr hentry))
  · have hlength := hsublist.length_le
    have hcount := h.count
    rw [hperm.length_eq] at hlength
    omega
  · rw [totalSize, ← (hperm.map _).sum_eq]
    exact (totalSize_sublist hsublist h.sizes).trans h.bytes

theorem Within.without (h : Within options recency) (key : K) :
    Within options (OrderedMap.without recency key) :=
  h.of_subperm List.filter_sublist.subperm

theorem Within.get (h : Within options recency) (key : K) :
    Within options (touch options recency (.get key)) := by
  unfold touch
  cases hfind : recency.find? (fun entry => entry.1 = key) with
  | none => simpa only [hfind] using h
  | some used =>
    simp only [hfind]
    apply h.of_subperm
    have hused : used ∈ recency.filter fun entry => !decide (entry.1 ≠ key) := by
      have hkey := List.find?_some hfind
      simpa using ⟨List.mem_of_find?_eq_some hfind, of_decide_eq_true hkey⟩
    have hlast : (OrderedMap.without recency key ++ [used]).Sublist
        (OrderedMap.without recency key ++ recency.filter fun entry => !decide (entry.1 ≠ key)) :=
      List.Sublist.append_left (List.singleton_sublist.mpr hused) _
    exact hlast.subperm.trans (List.filter_append_perm _ recency).subperm

theorem getLast?_of_suffix {A : Type} {kept whole : List A} (h : kept <:+ whole)
    (hne : kept ≠ []) : kept.getLast? = whole.getLast? := by
  obtain ⟨before, rfl⟩ := h
  rw [List.getLast?_append, List.getLast?_eq_some_getLast hne, Option.some_or]

/-- The longest end of a list that fits, with its last entry. -/
structure LongestEnd (options : LruCacheOptions) (recency kept : Recency K V) : Prop where
  suffix : kept <:+ recency
  last : kept.getLast? = recency.getLast?
  fits : Fits options kept
  longest : ∀ longer, longer <:+ recency → Fits options longer → longer.length ≤ kept.length

omit [DecidableEq K] in
/-- An entry that is admitted fits alone. -/
theorem longestFit_admitted {size : ℤ} (h : LruCache.admits options size = true)
    (recency : Recency K V) (key : K) (value : V) :
    LongestEnd options (recency ++ [(key, ⟨value, size⟩)])
      (longestFit options (recency ++ [(key, ⟨value, size⟩)])) := by
  have hends : [(key, (⟨value, size⟩ : Entry V))] <:+ recency ++ [(key, ⟨value, size⟩)] :=
    List.suffix_append _ _
  have halone : Fits options [(key, (⟨value, size⟩ : Entry V))] := by
    simp only [LruCache.admits, Bool.not_eq_true', Bool.or_eq_false_iff, decide_eq_false_iff_not,
      not_le, not_lt] at h
    simp only [Fits, totalSize, List.length_singleton, List.map_cons, List.map_nil, List.sum_cons,
      List.sum_nil]
    omega
  obtain ⟨hfits, hlength⟩ := longestFit_fits hends halone
  constructor
  · exact longestFit_suffix _
  · apply getLast?_of_suffix (longestFit_suffix _)
    intro hnil
    rw [hnil] at hlength
    simp at hlength
  · exact hfits
  · intro longer hlonger hfit
    exact (longestFit_fits hlonger hfit).2

omit [DecidableEq K] in
/-- What a set that is admitted keeps is within both bounds. -/
theorem LongestEnd.within (h : LongestEnd options recency kept)
    (hsizes : ∀ entry ∈ recency, 0 ≤ entry.2.size) : Within options kept := by
  constructor
  · intro entry hentry
    exact hsizes entry (h.suffix.subset hentry)
  · exact h.fits.1.trans (le_max_left _ _)
  · exact h.fits.2.trans (le_max_left _ _)

theorem Within.touch (h : Within options recency) (call : Call K V) :
    Within options (touch options recency call) := by
  cases call with
  | get key => exact h.get key
  | set key value size =>
    unfold Runtime.touch
    by_cases hadmits : LruCache.admits options size = true
    · simp only [hadmits, if_true]
      apply (longestFit_admitted hadmits _ key value).within
      intro entry hentry
      rcases List.mem_append.mp hentry with hold | hnew
      · exact (h.without key).sizes entry hold
      · rw [List.mem_singleton] at hnew
        subst hnew
        simp only [LruCache.admits, Bool.not_eq_true', Bool.or_eq_false_iff,
          decide_eq_false_iff_not, not_lt] at hadmits
        exact hadmits.2
    · simp only [hadmits]
      exact h.without key
  | clear => exact Within.nil

end Refinement

end FerrumNexus.Runtime
