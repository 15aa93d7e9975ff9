import FerrumNexus.Publishing.RecoveryCustody

/-!
# What a changed table reads as

Every row a history ever stored is sealed for its own key and names its write. In
a table of such rows, a row moved to another key does not open there, and a
journal reads only when the record and every chunk of one and the same write
stand in place.
-/
namespace FerrumNexus.RecoveryStorage

open Formats Platform

variable {ν : Type}

/-- The encrypted rows of the table are each sealed for their own key. -/
def Sealed (crypto : NexusCrypto ν) (before : Settings ν) : Prop :=
  ∀ key row, before key = some row → row.encrypted = true →
    ∃ (value : Json ν) (iv : ℕ), value.Keyed ∧
      row.value = .string (crypto.encryptJson key value iv)

/-- The row stood in the table at some moment of the history. -/
def Stored (format : NumberFormat ν) (crypto : NexusCrypto ν) (before : Settings ν)
    (ops : List (Op ν)) (row : SettingRow ν) : Prop :=
  ∃ earlier rest, earlier ++ rest = ops ∧ ∃ key, run format crypto earlier before key = some row

/-- A row of the history and the key it is sealed for. -/
inductive Known (format : NumberFormat ν) (crypto : NexusCrypto ν) (before : Settings ν)
    (ops : List (Op ν)) : String → SettingRow ν → Prop
  | other {key row} (h : before key = some row) : Known format crypto before ops key row
  | record {w} (h : Op.write w ∈ ops) (hfits : w.fits format = true) :
      Known format crypto before ops w.key (w.record format crypto)
  | chunk {w} (i : ℕ) (h : Op.write w ∈ ops) :
      Known format crypto before ops (chunkKey (w.manifest format crypto) i)
        (w.chunkRow format crypto i)

variable {format : NumberFormat ν} {crypto : NexusCrypto ν} {before s : Settings ν}
  {ops : List (Op ν)} {row : SettingRow ν} {key : String} {w : Write ν}

theorem Stored.known (hcrypto : Sealing crypto) (hops : Admissible before ops)
    (h : Stored format crypto before ops row) : ∃ key, Known format crypto before ops key row := by
  obtain ⟨earlier, rest, rfl, key, hrow⟩ := h
  have hcustody := custody_run format hcrypto hops.initial
  have hmem : ∀ w, Op.write w ∈ earlier → Op.write w ∈ earlier ++ rest := fun w hw =>
    List.mem_append_left rest hw
  by_cases hkey : isChunkKey key = true
  · obtain ⟨key', w, hlast, i, hi, rfl⟩ := hcustody.owned key row hkey hrow
    have hchunk := (hcustody.inPlace key' w hlast).chunk i hi
    cases hrow.symm.trans hchunk
    exact ⟨_, .chunk i (hmem w (hcustody.drawn key' w hlast))⟩
  · rw [Bool.not_eq_true] at hkey
    cases hlast : ledger format earlier key with
    | none =>
      have hbefore := hcustody.absent key hkey hlast
      exact ⟨key, .other (hbefore.symm.trans hrow)⟩
    | some w =>
      obtain ⟨rfl, -⟩ := hcustody.key key w hlast
      cases hrow.symm.trans (hcustody.inPlace _ w hlast).record
      exact ⟨_, .record (hmem w (hcustody.drawn _ w hlast)) (hcustody.fits _ w hlast).1⟩

theorem keyed_record (hvalid : w.Valid) :
    (if w.chunked format then manifestJson format (w.manifest format crypto)
      else w.value).Keyed := by
  split
  · exact keyed_manifestJson _
  · exact hvalid.keyed

variable {blob sealedFor : String} {journal : Json ν × Option Manifest}

/-- A row of the history opens only under the key it is sealed for. -/
theorem Known.opens {value : Json ν} (hcrypto : Sealing crypto) (hsealed : Sealed crypto before)
    (hops : Admissible before ops)
    (h : Known format crypto before ops sealedFor ⟨.string blob, true⟩)
    (hopen : crypto.decryptJson key blob = .ok value) : key = sealedFor := by
  by_contra hne
  have hblob : ∃ (payload : Json ν) (iv : ℕ), payload.Keyed ∧
      blob = crypto.encryptJson sealedFor payload iv := by
    generalize hrow : (⟨.string blob, true⟩ : SettingRow ν) = row at h
    cases h with
    | other hbefore =>
      subst hrow
      obtain ⟨payload, iv, hkeyed, hblob⟩ := hsealed _ _ hbefore rfl
      exact ⟨payload, iv, hkeyed, Json.string.inj hblob⟩
    | record hw _ =>
      cases hrow
      exact ⟨_, _, keyed_record (hops.valid _ hw), rfl⟩
    | chunk i _ =>
      cases hrow
      exact ⟨_, _, keyed_chunkJson i, rfl⟩
  obtain ⟨payload, iv, hkeyed, rfl⟩ := hblob
  obtain ⟨e, hfail⟩ := hcrypto.bound key sealedFor payload iv hkeyed hne
  rw [hfail] at hopen
  cases hopen

/-! ## What a read says of the rows -/

theorem load_opens (h : load format crypto key s = .ok (some journal)) :
    ∃ blob value, s key = some ⟨.string blob, true⟩ ∧ crypto.decryptJson key blob = .ok value := by
  unfold load at h
  split at h
  · cases h
  · rename_i blob hrow
    cases hopen : crypto.decryptJson key blob with
    | ok value => exact ⟨blob, value, hrow, hopen⟩
    | error e =>
      rw [hopen] at h
      cases h
  · cases h

theorem loadChunk_opens {m : Manifest} {i : ℕ} {text : String}
    (h : loadChunk format crypto m i s = .ok text) :
    ∃ blob value, s (chunkKey m i) = some ⟨.string blob, true⟩ ∧
      crypto.decryptJson (chunkKey m i) blob = .ok value := by
  unfold loadChunk at h
  split at h
  · rename_i blob hrow
    cases hopen : crypto.decryptJson (chunkKey m i) blob with
    | ok value => exact ⟨blob, value, hrow, hopen⟩
    | error e =>
      rw [hopen] at h
      cases h
  · cases h

theorem loadChunks_each {m : Manifest} : ∀ remaining index (text : String),
    loadChunks format crypto m s index remaining = .ok text →
    ∀ i, index ≤ i → i < index + remaining → ∃ part, loadChunk format crypto m i s = .ok part := by
  intro remaining
  induction remaining with
  | zero =>
    intro index text _ i hle hlt
    omega
  | succ remaining ih =>
    intro index text h i hle hlt
    unfold loadChunks at h
    cases hpart : loadChunk format crypto m index s with
    | error e =>
      rw [hpart] at h
      cases h
    | ok part =>
      rw [hpart] at h
      cases hrest : loadChunks format crypto m s (index + 1) remaining with
      | error e =>
        simp only [hrest, bind, Except.bind] at h
        cases h
      | ok rest =>
        by_cases hi : i = index
        · exact ⟨part, hi ▸ hpart⟩
        · exact ih (index + 1) rest hrest i (by omega) (by omega)

/-- A journal that reads under a manifest has read each chunk the manifest
counts. -/
theorem load_manifest {value : Json ν} {m : Manifest} (hrow : s key = some ⟨.string blob, true⟩)
    (hopen : crypto.decryptJson key blob = .ok value)
    (hfound : manifestFor format value key = .ok (some m))
    (h : load format crypto key s = .ok (some journal)) :
    ∀ i < m.count, ∃ part, loadChunk format crypto m i s = .ok part := by
  unfold load at h
  rw [hrow] at h
  simp only [hopen, hfound, bind, Except.bind] at h
  cases hchunks : loadChunks format crypto m s 0 m.count with
  | error e =>
    rw [hchunks] at h
    cases h
  | ok text =>
    intro i hi
    exact loadChunks_each m.count 0 text hchunks i (Nat.zero_le i) (by omega)

theorem load_chunks (hcrypto : Sealing crypto) (hvalid : w.Valid) (hfits : w.fits format = true)
    (hchunked : w.chunked format = true) (hrow : s w.key = some (w.record format crypto))
    (h : load format crypto w.key s = .ok (some journal)) :
    ∀ i < (w.manifest format crypto).count,
      ∃ part, loadChunk format crypto (w.manifest format crypto) i s = .ok part := by
  have hmanifest := manifest_valid hcrypto hvalid.generation hfits hchunked
  have hopen := hcrypto.opens w.key (manifestJson format (w.manifest format crypto)) w.iv
    (keyed_manifestJson _)
  have hfound : manifestFor format (manifestJson format (w.manifest format crypto)) w.key =
      .ok (some (w.manifest format crypto)) := manifestFor_manifestJson hmanifest
  unfold Write.record at hrow
  simp only [hchunked, if_true] at hrow
  exact load_manifest hrow hopen hfound h

/-! ## Moved rows -/

/-- A row at a journal's key that opens is the record of a write of that key. -/
theorem Known.record_of_opens (hkey : isChunkKey key = false) (hbefore : before key = none) (hat : key = sealedFor)
    (h : Known format crypto before ops sealedFor row) :
    ∃ w, Op.write w ∈ ops ∧ w.fits format = true ∧ w.key = key ∧
      row = w.record format crypto := by
  cases h with
  | other hrow =>
    rw [← hat, hbefore] at hrow
    cases hrow
  | record hw hfits => exact ⟨_, hw, hfits, hat.symm, rfl⟩
  | chunk i _ => exact absurd hat (chunkKey_ne hkey _ i)

/-- A row at a chunk's key that opens is that chunk. -/
theorem Known.chunk_of_opens {i : ℕ} (hops : Admissible before ops) (hw : Op.write w ∈ ops)
    (hat : chunkKey (w.manifest format crypto) i = sealedFor)
    (h : Known format crypto before ops sealedFor row) : row = w.chunkRow format crypto i := by
  cases h with
  | other hrow =>
    rw [← hat, hops.noChunks _ (isChunkKey_chunkKey _ i)] at hrow
    cases hrow
  | record hw' _ =>
    have hkey := hops.journal _ hw'
    exact absurd hat.symm (chunkKey_ne hkey _ i)
  | @chunk w' j hw' =>
    obtain ⟨hgeneration, rfl⟩ := manifest_chunkKey_inj (hops.valid w hw).generation
      (hops.valid w' hw').generation hat
    rw [write_unique hops.generations hw hw' hgeneration]

/-- Under the record of a write, only that write's own chunks read. -/
theorem inPlace_of_load {table : Settings ν} (hcrypto : Sealing crypto)
    (hsealed : Sealed crypto before) (hops : Admissible before ops)
    (htable : ∀ k row, table k = some row → ∃ key, Known format crypto before ops key row)
    (hw : Op.write w ∈ ops) (hfits : w.fits format = true)
    (hrow : table w.key = some (w.record format crypto))
    (h : load format crypto w.key table = .ok (some journal)) :
    InPlace format crypto w table ∧ journal.1 = w.value := by
  have hvalid := hops.valid w hw
  have hplace : InPlace format crypto w table := by
    refine ⟨hrow, fun i hi => ?_⟩
    unfold Write.count at hi
    split at hi
    · rename_i hchunked
      obtain ⟨part, hpart⟩ := load_chunks hcrypto hvalid hfits hchunked hrow h i hi
      obtain ⟨blob, value, hchunk, hopen⟩ := loadChunk_opens hpart
      obtain ⟨sealedFor, hknown⟩ := htable _ _ hchunk
      have hat := hknown.opens hcrypto hsealed hops hopen
      rw [hchunk, hknown.chunk_of_opens hops hw hat]
    · omega
  have hread := load_inPlace hcrypto hvalid hfits hplace
  rw [h] at hread
  cases hread
  exact ⟨hplace, rfl⟩

theorem read_eq (format : NumberFormat ν) (crypto : NexusCrypto ν) (key : String) (table : Settings ν) :
    readRecoveryJournal format crypto key table =
      (load format crypto key table).map (Option.map (·.1)) := by
  cases hrow : table key with
  | none =>
    unfold readRecoveryJournal load
    rw [hrow]
    rfl
  | some row =>
    unfold readRecoveryJournal
    rw [hrow]
    change (load format crypto key table >>= _) = _
    cases load format crypto key table with
    | error e => rfl
    | ok journal => rfl

theorem load_none_iff (format : NumberFormat ν) (crypto : NexusCrypto ν) (key : String) (table : Settings ν) :
    load format crypto key table = .ok none ↔ table key = none := by
  constructor
  · intro h
    cases hrow : table key with
    | none => rfl
    | some row =>
      unfold load at h
      rw [hrow] at h
      obtain ⟨value, encrypted⟩ := row
      cases value with
      | string blob =>
        cases encrypted with
        | false => cases h
        | true =>
          simp only [bind, Except.bind] at h
          split at h
          · cases h
          · split at h
            · cases h
            · split at h
              · cases h
              · split at h
                · cases h
                · split at h
                  · cases h
                  · split at h
                    · cases h
                    · cases h
      | _ => cases h
  · intro h
    unfold load
    rw [h]

end FerrumNexus.RecoveryStorage
