import FerrumNexus.Publishing.RecoveryRecords

/-!
# Every journal is stored whole

The ledger of a history is what each key was last written with. The invariant is
that the table holds the rows of exactly the ledger's writes: each record and
chunk in place, no other row under a chunk's key, and what was there before the
history. Generations never repeat, so two writes never share a chunk's key.
-/
namespace FerrumNexus.RecoveryStorage

open Formats Platform

variable {ν : Type}

/-! ## Keys -/

def CHUNK_PREFIX : String := "gateway_recovery_chunk:"

/-- A key that a chunk's row may have. -/
def isChunkKey (key : String) : Bool :=
  CHUNK_PREFIX.toList.isPrefixOf key.toList

theorem toList_chunkKey (manifest : Manifest) (index : ℕ) :
    (chunkKey manifest index).toList =
      CHUNK_PREFIX.toList ++ (manifest.generation.toList ++ (':' :: Nat.toDigits 10 index)) := by
  have hcolon : (":" : String).toList = [':'] := by simp
  unfold chunkKey CHUNK_PREFIX
  rw [String.toList_append, String.toList_append, String.toList_append, hcolon,
    Nat.toString_eq_repr, Nat.toList_repr, List.append_assoc, List.append_assoc,
    List.singleton_append]

theorem toDigits_inj {i j : ℕ} (h : Nat.toDigits 10 i = Nat.toDigits 10 j) : i = j := by
  rw [← Nat.ofDigitChars_toDigits (b := 10) (n := i) (by decide) (by decide), h,
    Nat.ofDigitChars_toDigits (by decide) (by decide)]

theorem isChunkKey_chunkKey (manifest : Manifest) (index : ℕ) :
    isChunkKey (chunkKey manifest index) = true := by
  rw [isChunkKey, toList_chunkKey, List.isPrefixOf_iff_prefix]
  exact List.prefix_append _ _

theorem generation_length {s : String} (h : generationShape s = true) : s.toList.length = 32 := by
  unfold generationShape isHex at h
  rw [Bool.and_eq_true] at h
  exact beq_iff_eq.mp h.1

theorem chunkKey_inj {m m' : Manifest} {i j : ℕ} (hm : generationShape m.generation = true)
    (hm' : generationShape m'.generation = true) (h : chunkKey m i = chunkKey m' j) :
    m.generation = m'.generation ∧ i = j := by
  have htext := congrArg String.toList h
  rw [toList_chunkKey, toList_chunkKey, List.append_cancel_left_eq] at htext
  have hlength : m.generation.toList.length = m'.generation.toList.length := by
    rw [generation_length hm, generation_length hm']
  obtain ⟨hgeneration, hindex⟩ := List.append_inj htext hlength
  exact ⟨String.toList_inj.mp hgeneration, toDigits_inj (List.cons.inj hindex).2⟩

/-! ## Histories -/

/-- One call on the storage. -/
inductive Op (ν : Type)
  | write (w : Write ν)
  | delete (key : String)

def Op.key : Op ν → String
  | .write w => w.key
  | .delete key => key

def Op.generation? : Op ν → Option String
  | .write w => some w.generation
  | .delete _ => none

section Histories

variable (format : NumberFormat ν) (crypto : NexusCrypto ν)

/-- The table after a call. One that fails commits nothing. -/
def Op.apply (s : Settings ν) : Op ν → Settings ν
  | .write w => (writeRecoveryJournal format crypto w s).toOption.getD s
  | .delete key => (deleteRecoveryJournal format crypto key s).toOption.getD s

def run (ops : List (Op ν)) (s : Settings ν) : Settings ν :=
  ops.foldl (Op.apply format crypto) s

/-- What a call is for: a write that fits a string is the key's last, and a
delete leaves the key with none. -/
def Op.note (ledger : String → Option (Write ν)) : Op ν → String → Option (Write ν)
  | .write w => if w.fits format then Function.update ledger w.key (some w) else ledger
  | .delete key => Function.update ledger key none

/-- The last write of each key. -/
def ledger (ops : List (Op ν)) : String → Option (Write ν) :=
  ops.foldl (Op.note format) fun _ => none

end Histories

/-- The calls are on journal keys that nothing else uses, their values are none
of the storage's own records, and no generation is drawn twice. -/
structure Admissible (before : Settings ν) (ops : List (Op ν)) : Prop where
  journal : ∀ op ∈ ops, isChunkKey op.key = false
  unused : ∀ op ∈ ops, before op.key = none
  noChunks : ∀ key, isChunkKey key = true → before key = none
  valid : ∀ w, Op.write w ∈ ops → w.Valid
  generations : (ops.filterMap Op.generation?).Nodup

theorem Admissible.initial {before : Settings ν} {ops rest : List (Op ν)}
    (h : Admissible before (ops ++ rest)) : Admissible before ops := by
  have hmem : ∀ o ∈ ops, o ∈ ops ++ rest := fun o ho => List.mem_append_left _ ho
  refine ⟨fun o ho => h.journal o (hmem o ho), fun o ho => h.unused o (hmem o ho), h.noChunks,
    fun w hw => h.valid w (hmem _ hw), ?_⟩
  have hnodup := h.generations
  rw [List.filterMap_append] at hnodup
  exact hnodup.of_append_left

/-- A generation names one write. -/
theorem write_unique {ops : List (Op ν)} (h : (ops.filterMap Op.generation?).Nodup) {w w' : Write ν}
    (hw : Op.write w ∈ ops) (hw' : Op.write w' ∈ ops) (he : w.generation = w'.generation) :
    w = w' := by
  induction ops with
  | nil => cases hw
  | cons op ops ih =>
    have hdrawn : ∀ v : Write ν, Op.write v ∈ ops →
        v.generation ∈ ops.filterMap Op.generation? := fun v hv =>
      List.mem_filterMap.mpr ⟨.write v, hv, rfl⟩
    cases op with
    | delete key =>
      simp only [List.filterMap_cons, Op.generation?] at h
      have hw₁ := (List.mem_cons.mp hw).resolve_left nofun
      have hw₂ := (List.mem_cons.mp hw').resolve_left nofun
      exact ih h hw₁ hw₂
    | write v =>
      simp only [List.filterMap_cons, Op.generation?, List.nodup_cons] at h
      rcases List.mem_cons.mp hw with hv | hw₁
      · rcases List.mem_cons.mp hw' with hv' | hw₂
        · cases hv
          cases hv'
          rfl
        · cases hv
          exact absurd (he ▸ hdrawn w' hw₂) h.1
      · rcases List.mem_cons.mp hw' with hv' | hw₂
        · cases hv'
          exact absurd (he ▸ hdrawn w hw₁) h.1
        · exact ih h.2 hw₁ hw₂

/-! ## Rows set in turn -/

theorem foldl_update_of_ne (keys : ℕ → String) (rows : ℕ → Option (SettingRow ν)) (n : ℕ)
    (s : Settings ν) {k : String} (h : ∀ i < n, k ≠ keys i) :
    (List.range n).foldl (fun s i => Function.update s (keys i) (rows i)) s k = s k := by
  induction n with
  | zero => rfl
  | succ n ih =>
    rw [List.range_succ, List.foldl_append]
    have hne : k ≠ keys n := h n (Nat.lt_succ_self n)
    have hrest := ih fun i hi => h i (Nat.lt_succ_of_lt hi)
    simpa [Function.update_of_ne hne] using hrest

theorem foldl_update_at (keys : ℕ → String) (rows : ℕ → Option (SettingRow ν)) (n : ℕ)
    (s : Settings ν) (hinj : ∀ i j, keys i = keys j → i = j) {i : ℕ} (hi : i < n) :
    (List.range n).foldl (fun s i => Function.update s (keys i) (rows i)) s (keys i) = rows i := by
  induction n with
  | zero => omega
  | succ n ih =>
    rw [List.range_succ, List.foldl_append]
    by_cases hlast : i = n
    · subst hlast
      simp
    · have hne : keys i ≠ keys n := fun he => hlast (hinj i n he)
      have hrest := ih (by omega)
      simpa [Function.update_of_ne hne] using hrest

variable {format : NumberFormat ν} {crypto : NexusCrypto ν} {w : Write ν} {s : Settings ν}

/-- A chunk's key names the generation and the place of the chunk. -/
theorem manifest_chunkKey_inj {p : Write ν} {i j : ℕ} (hw : generationShape w.generation = true)
    (hp : generationShape p.generation = true)
    (h : chunkKey (w.manifest format crypto) i = chunkKey (p.manifest format crypto) j) :
    w.generation = p.generation ∧ i = j := by
  have hinj := @chunkKey_inj (w.manifest format crypto) (p.manifest format crypto) i j
  exact hinj hw hp h

theorem setChunks_of_ne {k : String}
    (h : ∀ i < w.count format crypto, k ≠ chunkKey (w.manifest format crypto) i) :
    setChunks format crypto w s k = s k :=
  foldl_update_of_ne _ (fun i => some (w.chunkRow format crypto i)) _ s h

theorem setChunks_at (hgeneration : generationShape w.generation = true) {i : ℕ}
    (hi : i < w.count format crypto) :
    setChunks format crypto w s (chunkKey (w.manifest format crypto) i) =
      some (w.chunkRow format crypto i) :=
  foldl_update_at _ (fun i => some (w.chunkRow format crypto i)) _ s
    (fun _ _ he => (manifest_chunkKey_inj hgeneration hgeneration he).2) hi

theorem deleteChunks_of_ne {found : Option Manifest} {k : String}
    (h : ∀ m ∈ found, ∀ i < m.count, k ≠ chunkKey m i) : deleteChunks found s k = s k := by
  cases found with
  | none => rfl
  | some m => exact foldl_update_of_ne _ (fun _ => none) _ s (h m rfl)

theorem foldl_update_gone {n : ℕ} (keys : ℕ → String) (s : Settings ν) {i : ℕ} (hi : i < n) :
    (List.range n).foldl (fun s i => Function.update s (keys i) none) s (keys i) = none := by
  induction n with
  | zero => omega
  | succ n ih =>
    rw [List.range_succ, List.foldl_append]
    by_cases hlast : keys i = keys n
    · rw [hlast]
      exact Function.update_self ..
    · have hi' : i < n := by
        by_contra hge
        have hin : i = n := by omega
        exact hlast (congrArg keys hin)
      simpa [Function.update_of_ne hlast] using ih hi'

theorem foldl_update_or (keys : ℕ → String) (n : ℕ) (s : Settings ν) (k : String) :
    (List.range n).foldl (fun s i => Function.update s (keys i) none) s k = none ∨
      (List.range n).foldl (fun s i => Function.update s (keys i) none) s k = s k := by
  induction n with
  | zero => exact .inr rfl
  | succ n ih =>
    rw [List.range_succ, List.foldl_append]
    by_cases hk : k = keys n
    · subst hk
      exact .inl (Function.update_self ..)
    · simpa [Function.update_of_ne hk] using ih

/-- A deletion only takes rows. -/
theorem deleteChunks_or (found : Option Manifest) (s : Settings ν) (k : String) :
    deleteChunks found s k = none ∨ deleteChunks found s k = s k := by
  cases found with
  | none => exact .inr rfl
  | some m => exact foldl_update_or _ _ s k

theorem deleteChunks_gone {found : Option Manifest} {m : Manifest} (hm : m ∈ found) {i : ℕ}
    (hi : i < m.count) : deleteChunks found s (chunkKey m i) = none := by
  cases found with
  | none => cases hm
  | some p =>
    cases hm
    exact foldl_update_gone _ s hi

/-! ## The invariant -/

/-- What `load` finds of a key's last write. -/
def retired (format : NumberFormat ν) (crypto : NexusCrypto ν) (last : Option (Write ν)) :
    Option Manifest :=
  last.bind fun w => if w.chunked format then some (w.manifest format crypto) else none

/-- The table holds the rows of the ledger's writes and of what was before, and
no other. -/
structure Custody (format : NumberFormat ν) (crypto : NexusCrypto ν) (before : Settings ν)
    (ops : List (Op ν)) (last : String → Option (Write ν)) (s : Settings ν) : Prop where
  key : ∀ k w, last k = some w → w.key = k ∧ isChunkKey k = false
  fits : ∀ k w, last k = some w → w.fits format = true ∧ w.Valid
  drawn : ∀ k w, last k = some w → Op.write w ∈ ops
  inPlace : ∀ k w, last k = some w → InPlace format crypto w s
  absent : ∀ k, isChunkKey k = false → last k = none → s k = before k
  owned : ∀ k row, isChunkKey k = true → s k = some row → ∃ key w, last key = some w ∧
    ∃ i < w.count format crypto, k = chunkKey (w.manifest format crypto) i

variable {before : Settings ν} {ops : List (Op ν)} {last : String → Option (Write ν)}

theorem mem_retired {m : Manifest} {found : Option (Write ν)}
    (h : m ∈ retired format crypto found) :
    ∃ p, found = some p ∧ m = p.manifest format crypto ∧ p.count format crypto = m.count := by
  cases found with
  | none => cases h
  | some p =>
    simp only [retired, Option.bind_some] at h
    split at h
    · rename_i hchunked
      cases h
      exact ⟨p, rfl, rfl, if_pos hchunked⟩
    · cases h

theorem retired_of_count {p : Write ν} {i : ℕ} (hi : i < p.count format crypto) :
    retired format crypto (some p) = some (p.manifest format crypto) ∧
      i < (p.manifest format crypto).count := by
  unfold Write.count at hi
  split at hi
  · rename_i hchunked
    exact ⟨if_pos hchunked, hi⟩
  · omega

theorem chunkKey_ne {key : String} (h : isChunkKey key = false) (m : Manifest) (i : ℕ) :
    key ≠ chunkKey m i := by
  rintro rfl
  rw [isChunkKey_chunkKey] at h
  cases h

/-- In custody, `load` finds the last write of a key, or nothing. -/
theorem Custody.load (hcrypto : Sealing crypto) (h : Custody format crypto before ops last s)
    {key : String} (hkey : isChunkKey key = false) (hbefore : before key = none) :
    load format crypto key s = .ok ((last key).map fun w => (w.value,
      if w.chunked format then some (w.manifest format crypto) else none)) := by
  cases hlast : last key with
  | none =>
    unfold RecoveryStorage.load
    rw [h.absent key hkey hlast, hbefore]
    rfl
  | some w =>
    obtain ⟨rfl, -⟩ := h.key key w hlast
    obtain ⟨hfits, hvalid⟩ := h.fits _ w hlast
    exact load_inPlace hcrypto hvalid hfits (h.inPlace _ w hlast)

/-- The rows of a key's last write go, and no others. -/
theorem Custody.retire (h : Custody format crypto before ops last s)
    (hunique : (ops.filterMap Op.generation?).Nodup) {key : String}
    (hkey : isChunkKey key = false) (hbefore : before key = none) :
    Custody format crypto before ops (Function.update last key none)
      (Function.update (deleteChunks (retired format crypto (last key)) s) key none) := by
  have hold : ∀ k w, Function.update last key none k = some w → last k = some w ∧ k ≠ key := by
    intro k w hw
    by_cases he : k = key
    · rw [he, Function.update_self] at hw
      cases hw
    · rw [Function.update_of_ne he] at hw
      exact ⟨hw, he⟩
  refine ⟨fun k w hw => h.key k w (hold k w hw).1, fun k w hw => h.fits k w (hold k w hw).1,
    fun k w hw => h.drawn k w (hold k w hw).1, ?_, ?_, ?_⟩
  · intro k w hw
    obtain ⟨hlast, hne⟩ := hold k w hw
    have hplace := h.inPlace k w hlast
    obtain ⟨hwkey, hk⟩ := h.key k w hlast
    have hspared : ∀ k', (∀ m ∈ retired format crypto (last key), ∀ i < m.count, k' ≠ chunkKey m i) →
        k' ≠ key → Function.update (deleteChunks (retired format crypto (last key)) s) key none k' =
          s k' := by
      intro k' hchunks hk'
      rw [Function.update_of_ne hk', deleteChunks_of_ne hchunks]
    refine ⟨?_, fun i hi => ?_⟩
    · rw [hspared w.key ?_ (hwkey ▸ hne)]
      · exact hplace.record
      · intro m _ i _
        exact chunkKey_ne (hwkey ▸ hk) m i
    · rw [hspared _ ?_ (chunkKey_ne hkey _ _).symm]
      · exact hplace.chunk i hi
      · intro m hm j _ hchunk
        obtain ⟨p, hp, rfl, -⟩ := mem_retired hm
        have hgeneration := (manifest_chunkKey_inj (h.fits k w hlast).2.generation
          (h.fits key p hp).2.generation hchunk).1
        have hsame : w = p := write_unique hunique (h.drawn k w hlast) (h.drawn key p hp) hgeneration
        exact hne (hwkey.symm.trans (hsame ▸ (h.key key p hp).1))
  · intro k hk hnone
    by_cases he : k = key
    · rw [he, Function.update_self, hbefore]
    · rw [Function.update_of_ne he] at hnone ⊢
      rw [deleteChunks_of_ne fun m _ i _ => chunkKey_ne hk m i]
      exact h.absent k hk hnone
  · intro k row hk hrow
    have hne : k ≠ key := by
      rintro rfl
      rw [hkey] at hk
      cases hk
    rw [Function.update_of_ne hne] at hrow
    have hstood : s k = some row := by
      rcases deleteChunks_or (retired format crypto (last key)) s k with hgone | hspared
      · rw [hgone] at hrow
        cases hrow
      · exact hspared.symm.trans hrow
    obtain ⟨key', w, hlast, i, hi, hchunk⟩ := h.owned k row hk hstood
    have hne' : key' ≠ key := by
      intro he
      subst he
      obtain ⟨hretired, hi'⟩ := retired_of_count hi
      have hgone : deleteChunks (some (w.manifest format crypto)) s k = none := by
        rw [hchunk]
        exact deleteChunks_gone rfl hi'
      rw [← hretired, ← hlast, hrow] at hgone
      cases hgone
    exact ⟨key', w, (Function.update_of_ne hne' _ _).trans hlast, i, hi, hchunk⟩

/-- The rows of a new write come, under a generation nobody has. -/
theorem Custody.put (h : Custody format crypto before ops last s) (hvalid : w.Valid)
    (hfits : w.fits format = true) (hkey : isChunkKey w.key = false) (hnone : last w.key = none)
    (hfresh : ∀ p, Op.write p ∈ ops → p.generation ≠ w.generation) :
    Custody format crypto before (ops ++ [.write w]) (Function.update last w.key (some w))
      (setRow w.key (w.record format crypto) (setChunks format crypto w s)) := by
  have hnew : ∀ k v, Function.update last w.key (some w) k = some v →
      (k = w.key ∧ v = w) ∨ (k ≠ w.key ∧ last k = some v) := by
    intro k v hv
    by_cases he : k = w.key
    · rw [he, Function.update_self] at hv
      exact .inl ⟨he, (Option.some.inj hv).symm⟩
    · rw [Function.update_of_ne he] at hv
      exact .inr ⟨he, hv⟩
  have hother : ∀ k, k ≠ w.key →
      (∀ i < w.count format crypto, k ≠ chunkKey (w.manifest format crypto) i) →
      setRow w.key (w.record format crypto) (setChunks format crypto w s) k = s k := by
    intro k hk hchunks
    rw [setRow, Function.update_of_ne hk, setChunks_of_ne hchunks]
  refine ⟨?_, ?_, ?_, ?_, ?_, ?_⟩
  · intro k v hv
    rcases hnew k v hv with ⟨rfl, rfl⟩ | ⟨-, hv⟩
    · exact ⟨rfl, hkey⟩
    · exact h.key k v hv
  · intro k v hv
    rcases hnew k v hv with ⟨rfl, rfl⟩ | ⟨-, hv⟩
    · exact ⟨hfits, hvalid⟩
    · exact h.fits k v hv
  · intro k v hv
    rcases hnew k v hv with ⟨rfl, rfl⟩ | ⟨-, hv⟩
    · exact List.mem_append_right _ (List.mem_singleton_self _)
    · exact List.mem_append_left _ (h.drawn k v hv)
  · intro k v hv
    rcases hnew k v hv with ⟨rfl, rfl⟩ | ⟨hne, hv⟩
    · refine ⟨by rw [setRow, Function.update_self], fun i hi => ?_⟩
      rw [setRow, Function.update_of_ne (chunkKey_ne hkey _ _).symm]
      exact setChunks_at hvalid.generation hi
    · have hplace := h.inPlace k v hv
      obtain ⟨hvkey, hk⟩ := h.key k v hv
      refine ⟨?_, fun i hi => ?_⟩
      · rw [hother v.key (hvkey ▸ hne) fun i _ => chunkKey_ne (hvkey ▸ hk) _ i]
        exact hplace.record
      · rw [hother _ (chunkKey_ne hkey _ _).symm ?_]
        · exact hplace.chunk i hi
        · intro j _ hchunk
          exact hfresh v (h.drawn k v hv)
            (manifest_chunkKey_inj (h.fits k v hv).2.generation hvalid.generation hchunk).1
  · intro k hk hlast
    have hne : k ≠ w.key := by
      rintro rfl
      rw [Function.update_self] at hlast
      cases hlast
    rw [Function.update_of_ne hne] at hlast
    rw [hother k hne fun i _ => chunkKey_ne hk _ i]
    exact h.absent k hk hlast
  · intro k row hk hrow
    have hne : k ≠ w.key := by
      rintro rfl
      rw [hkey] at hk
      cases hk
    by_cases hmine : ∃ i < w.count format crypto, k = chunkKey (w.manifest format crypto) i
    · exact ⟨w.key, w, Function.update_self .., hmine⟩
    · push Not at hmine
      rw [hother k hne hmine] at hrow
      obtain ⟨key', v, hlast, hchunk⟩ := h.owned k row hk hrow
      refine ⟨key', v, ?_, hchunk⟩
      rw [Function.update_of_ne, hlast]
      rintro rfl
      rw [hnone] at hlast
      cases hlast

/-! ## Runs -/

/-- The chunks of the last write can go before the new ones come. -/
theorem deleteChunks_setChunks (format : NumberFormat ν) (crypto : NexusCrypto ν) (s : Settings ν)
    (found : Option (Write ν)) (hgeneration : generationShape w.generation = true)
    (hkey : isChunkKey w.key = false)
    (hfresh : ∀ p, found = some p → generationShape p.generation = true ∧ p.generation ≠ w.generation) :
    deleteChunks (retired format crypto found)
        (setRow w.key (w.record format crypto) (setChunks format crypto w s)) =
      setRow w.key (w.record format crypto) (setChunks format crypto w
        (Function.update (deleteChunks (retired format crypto found) s) w.key none)) := by
  funext k
  by_cases hk : k = w.key
  · subst hk
    rw [deleteChunks_of_ne fun m _ i _ => chunkKey_ne hkey m i, setRow, setRow,
      Function.update_self, Function.update_self]
  · by_cases hmine : ∃ i < w.count format crypto, k = chunkKey (w.manifest format crypto) i
    · obtain ⟨i, hi, rfl⟩ := hmine
      have hspared : ∀ m ∈ retired format crypto found, ∀ j < m.count,
          chunkKey (w.manifest format crypto) i ≠ chunkKey m j := by
        intro m hm j _ hchunk
        obtain ⟨p, hp, rfl, -⟩ := mem_retired hm
        obtain ⟨hshape, hne⟩ := hfresh p hp
        exact hne (manifest_chunkKey_inj hgeneration hshape hchunk).1.symm
      rw [deleteChunks_of_ne hspared, setRow, setRow, Function.update_of_ne hk,
        Function.update_of_ne hk, setChunks_at hgeneration hi, setChunks_at hgeneration hi]
    · have hother : ∀ i < w.count format crypto, k ≠ chunkKey (w.manifest format crypto) i :=
        fun i hi he => hmine ⟨i, hi, he⟩
      rw [setRow, setRow, Function.update_of_ne hk, setChunks_of_ne hother,
        Function.update_of_ne hk]
      by_cases hold : ∃ m ∈ retired format crypto found, ∃ i < m.count, k = chunkKey m i
      · obtain ⟨m, hm, i, hi, rfl⟩ := hold
        rw [deleteChunks_gone hm hi, deleteChunks_gone hm hi]
      · have hspared : ∀ m ∈ retired format crypto found, ∀ i < m.count, k ≠ chunkKey m i :=
          fun m hm i hi he => hold ⟨m, hm, i, hi, he⟩
        rw [deleteChunks_of_ne hspared, deleteChunks_of_ne hspared, Function.update_of_ne hk,
          setChunks_of_ne hother]

theorem Custody.mono (h : Custody format crypto before ops last s) (op : Op ν) :
    Custody format crypto before (ops ++ [op]) last s :=
  ⟨h.key, h.fits, fun k w hw => List.mem_append_left _ (h.drawn k w hw), h.inPlace, h.absent,
    h.owned⟩

/-- A delete takes the rows of the key's last write, when there is one. -/
theorem Custody.delete_eq (hcrypto : Sealing crypto) (h : Custody format crypto before ops last s)
    {key : String} (hkey : isChunkKey key = false) (hbefore : before key = none) :
    deleteRecoveryJournal format crypto key s = .ok (Function.update
      (deleteChunks (retired format crypto (last key)) s) key none) := by
  have hload := h.load hcrypto hkey hbefore
  unfold deleteRecoveryJournal
  cases hrow : s key with
  | none =>
    cases hlast : last key with
    | none =>
      have hsame : Function.update s key none = s := by
        rw [← hrow, Function.update_eq_self]
      exact congrArg Except.ok hsame.symm
    | some w =>
      have hrecord := (h.inPlace key w hlast).record
      rw [(h.key key w hlast).1, hrow] at hrecord
      cases hrecord
  | some row =>
    change (RecoveryStorage.load format crypto key s >>= _) = _
    rw [hload]
    cases last key with
    | none => rfl
    | some w => rfl

/-- A write puts its own rows where those of the key's last write were. -/
theorem Custody.write_eq (hcrypto : Sealing crypto) (h : Custody format crypto before ops last s)
    (hvalid : w.Valid) (hfits : w.fits format = true) (hkey : isChunkKey w.key = false)
    (hbefore : before w.key = none) (hfresh : ∀ p, Op.write p ∈ ops → p.generation ≠ w.generation) :
    writeRecoveryJournal format crypto w s =
      .ok (setRow w.key (w.record format crypto) (setChunks format crypto w (Function.update
        (deleteChunks (retired format crypto (last w.key)) s) w.key none))) := by
  have hload := h.load hcrypto hkey hbefore
  have hswap := deleteChunks_setChunks format crypto s (last w.key) hvalid.generation hkey
    fun p hp =>
      ⟨(h.fits _ p hp).2.generation, hfresh p (h.drawn _ p hp)⟩
  unfold writeRecoveryJournal
  rw [hfits]
  change (RecoveryStorage.load format crypto w.key s >>= _) = _
  rw [hload, ← hswap]
  cases last w.key with
  | none => rfl
  | some p => rfl

/-- What one call leaves in custody. -/
theorem Custody.apply (hcrypto : Sealing crypto) {op : Op ν}
    (h : Custody format crypto before ops last s) (hops : Admissible before (ops ++ [op])) :
    Custody format crypto before (ops ++ [op]) (op.note format last)
      (op.apply format crypto s) := by
  have hop : op ∈ ops ++ [op] := List.mem_append_right _ (List.mem_singleton_self op)
  have hunique := hops.initial.generations
  cases op with
  | delete key =>
    have hkey : isChunkKey key = false := hops.journal _ hop
    have hbefore : before key = none := hops.unused _ hop
    have hdelete := h.delete_eq hcrypto hkey hbefore
    have hretire := h.retire hunique hkey hbefore
    simp only [Op.apply, Op.note, hdelete]
    exact hretire.mono _
  | write w =>
    have hkey : isChunkKey w.key = false := hops.journal _ hop
    have hbefore : before w.key = none := hops.unused _ hop
    have hvalid := hops.valid w hop
    by_cases hfits : w.fits format = true
    · have hfresh : ∀ p, Op.write p ∈ ops → p.generation ≠ w.generation := by
        intro p hp he
        have hnodup := hops.generations
        rw [List.filterMap_append, List.nodup_append] at hnodup
        exact hnodup.2.2 p.generation (List.mem_filterMap.mpr ⟨_, hp, rfl⟩) w.generation
          (by simp [Op.generation?]) he
      have hwrite := h.write_eq hcrypto hvalid hfits hkey hbefore hfresh
      have hretire := h.retire hunique hkey hbefore
      have hput := hretire.put hvalid hfits hkey (Function.update_self ..) hfresh
      rw [Function.update_idem] at hput
      simp only [Op.apply, Op.note, hwrite, hfits, if_true]
      exact hput
    · have hrefused : writeRecoveryJournal format crypto w s = .error rangeError := by
        unfold writeRecoveryJournal
        rw [if_pos (by simpa using hfits)]
      simp only [Op.apply, Op.note, hrefused, if_neg hfits]
      exact h.mono _

/-- Custody holds after every history. -/
theorem custody_run (format : NumberFormat ν) (hcrypto : Sealing crypto) (h : Admissible before ops) :
    Custody format crypto before ops (ledger format ops) (run format crypto ops before) := by
  induction ops using List.reverseRecOn with
  | nil =>
    refine ⟨nofun, nofun, nofun, nofun, fun _ _ _ => rfl, fun k row hk hrow => ?_⟩
    have hnone := h.noChunks k hk
    exact absurd (hrow.symm.trans hnone) nofun
  | append_singleton ops op ih =>
    have hcustody := (ih h.initial).apply hcrypto h
    unfold run ledger at hcustody ⊢
    rw [List.foldl_append, List.foldl_append]
    exact hcustody

end FerrumNexus.RecoveryStorage
