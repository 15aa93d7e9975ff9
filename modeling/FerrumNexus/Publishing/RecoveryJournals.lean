import FerrumNexus.Publishing.RecoveryTampering

/-!
# Journals are stored whole

What a history of writes and deletes leaves to be read, which chunk rows it
leaves, and what a read makes of a table in which rows were moved, removed or
taken from an earlier moment.
-/
namespace FerrumNexus.RecoveryStorage

open Formats Platform

section Journals

variable {ν : Type} {format : NumberFormat ν} {crypto : NexusCrypto ν} {before : Settings ν}
  {ops : List (Op ν)}

/-- A journal that reads from a table of stored rows is one whole write of its
key. -/
theorem load_some_iff {key : String} {table : Settings ν} {v : Json ν}
    (hcrypto : Sealing crypto) (hsealed : Sealed crypto before) (hops : Admissible before ops)
    (hkey : isChunkKey key = false) (hbefore : before key = none)
    (htable : ∀ k row, table k = some row → ∃ key, Known format crypto before ops key row) :
    readRecoveryJournal format crypto key table = .ok (some v) ↔
      ∃ w, Op.write w ∈ ops ∧ w.fits format = true ∧ w.key = key ∧
        InPlace format crypto w table ∧ v = w.value := by
  rw [read_eq]
  constructor
  · intro h
    cases hload : load format crypto key table with
    | error e =>
      rw [hload] at h
      cases h
    | ok found =>
      rw [hload] at h
      cases found with
      | none => cases h
      | some journal =>
        obtain ⟨blob, value, hrow, hopen⟩ := load_opens hload
        obtain ⟨sealedFor, hknown⟩ := htable _ _ hrow
        have hat := hknown.opens hcrypto hsealed hops hopen
        obtain ⟨w, hw, hfits, rfl, hrecord⟩ := hknown.record_of_opens hkey hbefore hat
        rw [hrecord] at hrow
        obtain ⟨hplace, hvalue⟩ :=
          inPlace_of_load hcrypto hsealed hops htable hw hfits hrow hload
        refine ⟨w, hw, hfits, rfl, hplace, ?_⟩
        rw [← hvalue]
        cases h
        rfl
  · intro h
    obtain ⟨w, hw, hfits, rfl, hplace, rfl⟩ := h
    rw [load_inPlace hcrypto (hops.valid w hw) hfits hplace]
    rfl

/-- Every history leaves the last write of each journal to be read, and the
chunk rows of those writes. A table of rows that stood there at any moment reads
as a journal only where one write of the key stands whole, so under a record that
was not touched it reads as the last value or fails, and it fails when a chunk
was. -/
theorem journals_stored_whole (format : NumberFormat ν) (hcrypto : Sealing crypto)
    (hsealed : Sealed crypto before) (hops : Admissible before ops) :
    (∀ key, isChunkKey key = false → before key = none →
      readRecoveryJournal format crypto key (run format crypto ops before) =
        .ok ((ledger format ops key).map (·.value))) ∧
    (∀ k row, isChunkKey k = true → (run format crypto ops before k = some row ↔
      ∃ key w, ledger format ops key = some w ∧ ∃ i < w.count format crypto,
        k = chunkKey (w.manifest format crypto) i ∧ row = w.chunkRow format crypto i)) ∧
    ∀ table, (∀ k row, table k = some row → Stored format crypto before ops row) →
      ∀ key, isChunkKey key = false → before key = none →
        (∀ v, readRecoveryJournal format crypto key table = .ok (some v) ↔
          ∃ w, Op.write w ∈ ops ∧ w.fits format = true ∧ w.key = key ∧
            InPlace format crypto w table ∧ v = w.value) ∧
        (readRecoveryJournal format crypto key table = .ok none ↔ table key = none) ∧
        ∀ w, ledger format ops key = some w → table key = run format crypto ops before key →
          (readRecoveryJournal format crypto key table = .ok (some w.value) ∨
            ∃ e, readRecoveryJournal format crypto key table = .error e) ∧
          ∀ i < w.count format crypto,
            table (chunkKey (w.manifest format crypto) i) ≠
              run format crypto ops before (chunkKey (w.manifest format crypto) i) →
            ∃ e, readRecoveryJournal format crypto key table = .error e := by
  have hcustody := custody_run format hcrypto hops
  refine ⟨fun key hkey hbefore => ?_, fun k row hk => ⟨fun hrow => ?_, ?_⟩,
    fun table htable key hkey hbefore => ?_⟩
  · rw [read_eq, hcustody.load hcrypto hkey hbefore]
    cases ledger format ops key with
    | none => rfl
    | some w => rfl
  · obtain ⟨key, w, hlast, i, hi, rfl⟩ := hcustody.owned k row hk hrow
    have hchunk := (hcustody.inPlace key w hlast).chunk i hi
    exact ⟨key, w, hlast, i, hi, rfl, Option.some.inj (hrow.symm.trans hchunk)⟩
  · rintro ⟨key, w, hlast, i, hi, rfl, rfl⟩
    exact (hcustody.inPlace key w hlast).chunk i hi
  · have hknown : ∀ k row, table k = some row → ∃ key, Known format crypto before ops key row :=
      fun k row hrow => (htable k row hrow).known hcrypto hops
    have hsome := fun v => load_some_iff (v := v) hcrypto hsealed hops hkey hbefore hknown
    have hnone : readRecoveryJournal format crypto key table = .ok none ↔ table key = none := by
      rw [read_eq, ← load_none_iff format crypto]
      cases load format crypto key table with
      | error e => simp [Except.map]
      | ok found =>
        cases found with
        | none => simp [Except.map]
        | some journal => simp [Except.map]
    refine ⟨hsome, hnone, fun w hlast hstands => ?_⟩
    obtain ⟨rfl, -⟩ := hcustody.key key w hlast
    have hrecord : table w.key = some (w.record format crypto) :=
      hstands.trans (hcustody.inPlace _ w hlast).record
    have hread := read_eq format crypto w.key table
    cases hload : load format crypto w.key table with
    | error e =>
      rw [hload] at hread
      exact ⟨.inr ⟨e, hread⟩, fun _ _ _ => ⟨e, hread⟩⟩
    | ok found =>
      cases found with
      | none =>
        have habsent := (load_none_iff format crypto w.key table).mp hload
        exact absurd (habsent.symm.trans hrecord) nofun
      | some journal =>
        obtain ⟨hplace, hvalue⟩ := inPlace_of_load hcrypto hsealed hops hknown
          (hcustody.drawn _ w hlast) (hcustody.fits _ w hlast).1 hrecord hload
        rw [hload] at hread
        refine ⟨.inl (by rw [hread, ← hvalue]; rfl), fun i hi hmoved => absurd ?_ hmoved⟩
        exact (hplace.chunk i hi).trans ((hcustody.inPlace _ w hlast).chunk i hi).symm

end Journals

/-! ## A cipher that hides nothing -/

/-- What a blob opens as, once its text is read: its value, under its own key. -/
def plainOpen (key : String) : Option (Json ℕ) → Except NexusError (Json ℕ)
  | some (.array [.string key', value, _]) =>
    if key = key' then .ok value else .error syntaxError
  | _ => .error syntaxError

/-- A blob is the text of its key, its value and its vector. -/
def plainCrypto : NexusCrypto ℕ where
  encryptJson key value iv :=
    String.ofList (stringify decimalFormat (.array [.string key, value, .number iv]))
  decryptJson key blob := plainOpen key (parse decimalFormat blob.toList)
  fingerprint _ := String.ofList (List.replicate 64 '0')

theorem plainCrypto_decryptJson (key key' : String) {value : Json ℕ} (iv : ℕ)
    (hkeyed : value.Keyed) :
    plainCrypto.decryptJson key (plainCrypto.encryptJson key' value iv) =
      if key = key' then .ok value else .error syntaxError := by
  have hparse : parse decimalFormat (String.ofList (stringify decimalFormat
      (.array [.string key', value, .number iv]))).toList =
        some (.array [.string key', value, .number iv]) := by
    rw [String.toList_ofList, parse_stringify]
    simp [Json.Keyed, KeyedItems, hkeyed]
  have hopen : plainOpen key (some (.array [.string key', value, .number iv])) =
      if key = key' then .ok value else .error syntaxError := rfl
  simp only [plainCrypto]
  rw [hparse, hopen]

theorem sealing_plainCrypto : Sealing plainCrypto := by
  have hshape : fingerprintShape (String.ofList (List.replicate 64 '0')) = true := by decide
  refine ⟨fun key value iv hkeyed => ?_, fun key key' value iv hkeyed hne => ⟨syntaxError, ?_⟩,
    fun _ => hshape⟩
  · rw [plainCrypto_decryptJson key key iv hkeyed, if_pos rfl]
  · rw [plainCrypto_decryptJson key key' iv hkeyed, if_neg hne]

theorem sealed_nothing : Sealed plainCrypto fun _ => none := by
  intro key row h
  cases h

def firstWrite : Write ℕ := ⟨"journal", .null, "00000000000000000000000000000000", 0, fun i => i⟩

def secondWrite : Write ℕ :=
  ⟨"journal", .bool true, "00000000000000000000000000000001", 1, fun i => i⟩

def strayWrite : Write ℕ :=
  ⟨"gateway_recovery_chunk:00000000000000000000000000000000:0", .null,
    "00000000000000000000000000000001", 0, fun i => i⟩

theorem admissible_writes :
    Admissible (fun _ => none) [.write firstWrite, .write secondWrite] := by
  refine ⟨?_, fun _ _ => rfl, fun _ _ => rfl, ?_, by decide⟩
  · simp only [List.forall_mem_cons]
    exact ⟨by decide, by decide, nofun⟩
  · intro w hw
    simp only [List.mem_cons, Op.write.injEq, List.not_mem_nil, or_false] at hw
    rcases hw with rfl | rfl
    · exact ⟨trivial, nofun, by decide⟩
    · exact ⟨trivial, nofun, by decide⟩

theorem admissible_first : Admissible (fun _ => none) [.write firstWrite] :=
  admissible_writes.initial

/-- A text of plain letters. -/
def longText (n : ℕ) : String := String.ofList (List.replicate n 'a')

theorem stringify_longText (n : ℕ) : stringify decimalFormat (.string (longText n)) =
    '"' :: (List.replicate n 'a' ++ ['"']) := by
  have hquote : quoteChar 'a' = ['a'] := by decide
  rw [stringify, quote, longText, String.toList_ofList, List.flatMap_replicate, hquote,
    List.flatten_replicate_singleton]

theorem length_longText (n : ℕ) :
    (stringify decimalFormat (.string (longText n))).length = n + 2 := by
  simp [stringify_longText]

theorem length_utf8 (text : List Char) : (utf8 text).length = (text.map Char.utf8Size).sum := by
  have hbytes : (utf8 text).length = (text.flatMap String.utf8EncodeChar).toByteArray.size := rfl
  rw [hbytes, List.size_toByteArray, List.length_flatMap]
  simp only [String.length_utf8EncodeChar]

theorem bytes_longText (n : ℕ) :
    (utf8 (stringify decimalFormat (.string (longText n)))).length = n + 2 := by
  have hquote : '"'.utf8Size = 1 := by decide
  have ha : 'a'.utf8Size = 1 := by decide
  rw [stringify_longText, length_utf8]
  simp [List.map_replicate, List.sum_replicate, hquote, ha]
  omega

theorem length_sextets (bytes : List UInt8) : (sextets bytes).length ≤ 2 * bytes.length := by
  induction bytes using sextets.induct with
  | case1 => simp [sextets]
  | case2 a => simp [sextets]
  | case3 a b => simp [sextets]
  | case4 a b c bytes ih =>
    simp only [sextets, List.length_cons]
    omega

/-- A journal that is too long for one row. -/
def longWrite : Write ℕ :=
  ⟨"journal", .string (longText 600000), "00000000000000000000000000000001", 1, fun i => i⟩

theorem bytes_longWrite : (longWrite.bytes decimalFormat).length = 600002 :=
  bytes_longText 600000

theorem chunked_longWrite : longWrite.chunked decimalFormat = true := by
  rw [Write.chunked, bytes_longWrite]
  decide

theorem fits_longWrite : longWrite.fits decimalFormat = true := by
  have htext : (stringify decimalFormat longWrite.value).length = 600002 := length_longText 600000
  have hencoded : (longWrite.encoded decimalFormat).length ≤ 1200007 := by
    have hlength := length_sextets (longWrite.bytes decimalFormat)
    rw [bytes_longWrite] at hlength
    rw [Write.encoded, encodeBase64, List.length_append, List.length_map, List.length_replicate]
    omega
  rw [Write.fits, htext, Bool.and_eq_true, decide_eq_true_iff, decide_eq_true_iff]
  exact ⟨by decide, hencoded.trans (by decide)⟩

theorem admissible_long : Admissible (fun _ => none) [.write firstWrite, .write longWrite] := by
  refine ⟨?_, fun _ _ => rfl, fun _ _ => rfl, ?_, by decide⟩
  · simp only [List.forall_mem_cons]
    exact ⟨by decide, by decide, nofun⟩
  · intro w hw
    simp only [List.mem_cons, Op.write.injEq, List.not_mem_nil, or_false] at hw
    rcases hw with rfl | rfl
    · exact ⟨trivial, nofun, by decide⟩
    · exact ⟨trivial, nofun, by decide⟩

theorem journals_stored_whole_writes :
    let table := run decimalFormat plainCrypto [.write firstWrite, .write longWrite] fun _ => none
    let manifest := longWrite.manifest decimalFormat plainCrypto
    readRecoveryJournal decimalFormat plainCrypto "journal" table = .ok (some longWrite.value) ∧
      table (chunkKey manifest 0) = some (longWrite.chunkRow decimalFormat plainCrypto 0) := by
  intro table manifest
  have hledger : ledger decimalFormat [.write firstWrite, .write longWrite] "journal" =
      some longWrite := by
    simp only [ledger, List.foldl_cons, List.foldl_nil, Op.note, if_pos fits_longWrite]
    exact Function.update_self ..
  have hcount : 0 < longWrite.count decimalFormat plainCrypto := by
    rw [Write.count, if_pos chunked_longWrite]
    exact (manifest_valid sealing_plainCrypto (by decide) fits_longWrite chunked_longWrite).count_pos
  obtain ⟨hread, hchunks, -⟩ := journals_stored_whole decimalFormat sealing_plainCrypto
    sealed_nothing admissible_long
  refine ⟨?_, ?_⟩
  · rw [hread "journal" (by decide) rfl, hledger]
    rfl
  · apply (hchunks (chunkKey manifest 0) _ (isChunkKey_chunkKey _ _)).mpr
    exact ⟨"journal", longWrite, hledger, 0, hcount, rfl, rfl⟩

/-- A removed record reads as no journal at all, an older record put back reads
as the older value, and a journal kept under a chunk's key is a row there that no
manifest counts. -/
theorem records_replaced_unnoticed :
    readRecoveryJournal decimalFormat plainCrypto "journal"
        (Function.update
          (run decimalFormat plainCrypto [.write firstWrite, .write secondWrite] fun _ => none)
          "journal" none) = .ok none ∧
    readRecoveryJournal decimalFormat plainCrypto "journal"
        (Function.update
          (run decimalFormat plainCrypto [.write firstWrite, .write secondWrite] fun _ => none)
          "journal" (run decimalFormat plainCrypto [.write firstWrite] (fun _ => none) "journal")) =
      .ok (some .null) ∧
    isChunkKey strayWrite.key = true ∧
    (run decimalFormat plainCrypto [.write strayWrite] (fun _ => none) strayWrite.key).isSome ∧
    ∀ key w, ledger decimalFormat [.write strayWrite] key = some w →
      w.count decimalFormat plainCrypto = 0 := by
  have hfirst := (custody_run decimalFormat sealing_plainCrypto admissible_first).inPlace "journal"
      firstWrite rfl
  refine ⟨?_, ?_, by decide, ?_, ?_⟩
  · rw [read_eq, (load_none_iff _ _ _ _).mpr (Function.update_self ..)]
    rfl
  · have hvalid := admissible_writes.valid firstWrite (by simp)
    have hplace : InPlace decimalFormat plainCrypto firstWrite (Function.update
        (run decimalFormat plainCrypto [.write firstWrite, .write secondWrite] fun _ => none)
        "journal" (run decimalFormat plainCrypto [.write firstWrite] (fun _ => none) "journal")) := by
      refine ⟨(Function.update_self ..).trans hfirst.record, fun i hi => ?_⟩
      have hnone : firstWrite.count decimalFormat plainCrypto = 0 := by decide
      omega
    have hload := load_inPlace sealing_plainCrypto hvalid (by decide) hplace
    rw [read_eq]
    change (load decimalFormat plainCrypto firstWrite.key _).map _ = _
    rw [hload]
    rfl
  · decide
  · intro key w hw
    have hledger : ledger decimalFormat [.write strayWrite] =
        Function.update (fun _ => none) strayWrite.key (some strayWrite) := by
      have hfits : strayWrite.fits decimalFormat = true := by decide
      simp [ledger, Op.note, hfits]
    rw [hledger] at hw
    by_cases hkey : key = strayWrite.key
    · rw [hkey, Function.update_self, Option.some.injEq] at hw
      subst hw
      decide
    · rw [Function.update_of_ne hkey] at hw
      cases hw

end FerrumNexus.RecoveryStorage
