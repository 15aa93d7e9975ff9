import FerrumNexus.Publishing.RecoveryStorage

/-!
# One journal: what its rows decode to

The decoder's checks against the encoder's numbers. The slices of a text are its
chunks in order, each as long as the manifest says, so a journal whose rows all
stand in place reads as the value it was written with. The converse needs the
cipher: a row that decrypts under a key was encrypted for that key.
-/
namespace FerrumNexus.RecoveryStorage

open Formats Platform

variable {ν : Type} {format : NumberFormat ν} {crypto : NexusCrypto ν}

/-- What the storage relies on: a blob opens under the key it was encrypted for,
as the value that was encrypted, and under no other; and a fingerprint is
sixty-four hexadecimal digits. -/
structure Sealing (crypto : NexusCrypto ν) : Prop where
  opens : ∀ key (value : Json ν) iv, value.Keyed →
    crypto.decryptJson key (crypto.encryptJson key value iv) = .ok value
  bound : ∀ key key' (value : Json ν) iv, value.Keyed → key ≠ key' →
    ∃ e, crypto.decryptJson key (crypto.encryptJson key' value iv) = .error e
  shape : ∀ s, fingerprintShape (crypto.fingerprint s) = true

/-! ## Texts -/

theorem fromUTF8_utf8 (text : List Char) :
    String.fromUTF8? (utf8 text).toByteArray = some (String.ofList text) := by
  have hbytes : (utf8 text).toByteArray = (String.ofList text).toByteArray := by
    unfold utf8
    ext1
    rw [List.data_toByteArray, Array.toArray_toList]
    rfl
  rw [hbytes, String.fromUTF8?, dif_pos (String.ofList text).isValidUTF8]
  rfl

theorem digit_toNat_lt : ∀ n < 64, (digit n).toNat < 65536 := by decide

theorem encodeBase64_ascii (bytes : List UInt8) : ∀ c ∈ encodeBase64 bytes, c.toNat < 65536 := by
  intro c hc
  rw [encodeBase64, List.mem_append] at hc
  rcases hc with hc | hc
  · obtain ⟨n, hn, rfl⟩ := List.mem_map.mp hc
    exact digit_toNat_lt n (sextets_lt bytes n hn)
  · rw [List.eq_of_mem_replicate hc]
    decide

theorem utf16Length_ofList {text : List Char} (h : ∀ c ∈ text, c.toNat < 65536) :
    utf16Length (String.ofList text) = text.length := by
  have hfold : ∀ (text : List Char) (n : ℕ), (∀ c ∈ text, c.toNat < 65536) →
      text.foldl (fun n c => n + if 0xFFFF < c.toNat then 2 else 1) n = n + text.length := by
    intro text
    induction text with
    | nil =>
      intro n _
      rfl
    | cons c text ih =>
      intro n h
      have hc : ¬0xFFFF < c.toNat := by
        have hlt := h c List.mem_cons_self
        omega
      rw [List.foldl_cons, if_neg hc, ih _ fun d hd => h d (List.mem_cons_of_mem c hd),
        List.length_cons]
      omega
  unfold utf16Length
  rw [String.toList_ofList, hfold text 0 h, Nat.zero_add]

variable {w : Write ν}

theorem parseEncoded_encoded (hkeyed : w.value.Keyed) :
    parseEncoded format (String.ofList (w.encoded format)) = .ok w.value := by
  have hdecoded : decodeBase64 (String.ofList (w.encoded format)).toList = w.bytes format := by
    rw [String.toList_ofList, Write.encoded, decode_encodeBase64]
  unfold parseEncoded
  rw [hdecoded, Write.bytes, fromUTF8_utf8]
  simp only [String.toList_ofList, parse_stringify format hkeyed]

/-! ## Slices -/

theorem slice_length (format : NumberFormat ν) (w : Write ν) (index : ℕ) :
    utf16Length (w.slice format index) =
      min CHUNK_CHARACTERS ((w.encoded format).length - index * CHUNK_CHARACTERS) := by
  have hascii : ∀ c ∈ ((w.encoded format).drop (index * CHUNK_CHARACTERS)).take CHUNK_CHARACTERS,
      c.toNat < 65536 := fun c hc =>
    encodeBase64_ascii _ c (List.mem_of_mem_drop (List.mem_of_mem_take hc))
  rw [Write.slice, utf16Length_ofList hascii, List.length_take, List.length_drop]

theorem slice_append (index : ℕ) :
    w.slice format index ++ String.ofList ((w.encoded format).drop ((index + 1) * CHUNK_CHARACTERS))
      = String.ofList ((w.encoded format).drop (index * CHUNK_CHARACTERS)) := by
  rw [Write.slice, ← String.ofList_append, add_mul, one_mul, ← List.drop_drop,
    List.take_append_drop]

/-! ## Manifests and chunks -/

theorem chunked_encoded_pos (h : w.chunked format = true) : 0 < (w.encoded format).length := by
  have hbytes : w.bytes format ≠ [] := by
    rintro hnil
    simp [Write.chunked, hnil] at h
  exact List.length_pos_iff.mpr (encodeBase64_ne_nil hbytes)

/-- The numbers of a manifest fit the decoder's checks. -/
structure Manifest.Valid (manifest : Manifest) : Prop where
  generation : generationShape manifest.generation = true
  count_pos : 1 ≤ manifest.count
  characters_pos : 1 ≤ manifest.characters
  characters_safe : manifest.characters ≤ MAX_SAFE_INTEGER
  count_eq : (manifest.characters + CHUNK_CHARACTERS - 1) / CHUNK_CHARACTERS = manifest.count
  fingerprint : fingerprintShape manifest.fingerprint = true

theorem Manifest.Valid.count_le {manifest : Manifest} (h : manifest.Valid) :
    manifest.count ≤ manifest.characters := by
  rw [← h.count_eq]
  have hpos := h.characters_pos
  unfold CHUNK_CHARACTERS
  omega

theorem manifestFor_manifestJson {manifest : Manifest} (h : manifest.Valid) :
    manifestFor format (manifestJson format manifest) manifest.key = .ok (some manifest) := by
  have hcount := format.safeInteger_ofNat manifest.count (h.count_le.trans h.characters_safe)
  have hcharacters := format.safeInteger_ofNat manifest.characters h.characters_safe
  have hone : (1 : ℤ) ≤ manifest.count := by
    exact_mod_cast h.count_pos
  have hone' : (1 : ℤ) ≤ manifest.characters := by
    exact_mod_cast h.characters_pos
  simp [manifestFor, manifestJson, checkedManifest, stringMember, integerMember, member, hcount,
    hcharacters, hone, hone', h.generation, h.fingerprint, h.count_eq]

theorem manifest_valid (hcrypto : Sealing crypto) (hgeneration : generationShape w.generation = true)
    (hfits : w.fits format = true) (hchunked : w.chunked format = true) :
    (w.manifest format crypto).Valid := by
  have hpos := chunked_encoded_pos hchunked
  rw [Write.fits, Bool.and_eq_true, decide_eq_true_eq, decide_eq_true_eq] at hfits
  refine ⟨hgeneration, ?_, hpos, ?_, rfl, hcrypto.shape _⟩
  · change 1 ≤ ((w.encoded format).length + CHUNK_CHARACTERS - 1) / CHUNK_CHARACTERS
    unfold CHUNK_CHARACTERS
    omega
  · change (w.encoded format).length ≤ MAX_SAFE_INTEGER
    have hlength := hfits.2
    unfold MAX_STRING_LENGTH at hlength
    unfold MAX_SAFE_INTEGER
    omega

theorem chunkText_chunkJson {index : ℕ} (hindex : index ≤ MAX_SAFE_INTEGER) :
    chunkText format (w.manifest format crypto) index (w.chunkJson format index) =
      .ok (w.slice format index) := by
  have hsafe := format.safeInteger_ofNat index hindex
  have hlength := slice_length format w index
  simp [chunkText, Write.chunkJson, stringMember, integerMember, member, hsafe, hlength,
    Write.manifest]

theorem keyed_manifestJson (manifest : Manifest) : (manifestJson format manifest).Keyed := by
  simp [manifestJson, Json.Keyed, KeyedMembers]

theorem keyed_chunkJson (index : ℕ) : (w.chunkJson format index).Keyed := by
  simp [Write.chunkJson, Json.Keyed, KeyedMembers]

/-! ## Rows in place -/

/-- A journal whose value is none of the storage's own records. -/
structure Write.Valid (w : Write ν) : Prop where
  keyed : w.value.Keyed
  noFormat : ∀ members, w.value = .object members → member members "format" = none
  generation : generationShape w.generation = true

/-- The record of the write stands at its key, and each chunk under its own. -/
structure InPlace (format : NumberFormat ν) (crypto : NexusCrypto ν) (w : Write ν)
    (s : Settings ν) : Prop where
  record : s w.key = some (w.record format crypto)
  chunk : ∀ i < w.count format crypto,
    s (chunkKey (w.manifest format crypto) i) = some (w.chunkRow format crypto i)

theorem loadChunk_row (hcrypto : Sealing crypto) {s : Settings ν} {index : ℕ}
    (hindex : index ≤ MAX_SAFE_INTEGER)
    (hrow : s (chunkKey (w.manifest format crypto) index) = some (w.chunkRow format crypto index)) :
    loadChunk format crypto (w.manifest format crypto) index s = .ok (w.slice format index) := by
  unfold loadChunk
  rw [hrow]
  simp only [Write.chunkRow, hcrypto.opens _ _ _ (keyed_chunkJson index)]
  exact chunkText_chunkJson hindex

/-- The chunks from one on are the text from its place on. -/
theorem loadChunks_rows (hcrypto : Sealing crypto) {s : Settings ν}
    (hvalid : (w.manifest format crypto).Valid)
    (hrows : ∀ i < (w.manifest format crypto).count,
      s (chunkKey (w.manifest format crypto) i) = some (w.chunkRow format crypto i)) :
    ∀ remaining index, index + remaining = (w.manifest format crypto).count →
      loadChunks format crypto (w.manifest format crypto) s index remaining =
        .ok (String.ofList ((w.encoded format).drop (index * CHUNK_CHARACTERS))) := by
  intro remaining
  induction remaining with
  | zero =>
    intro index hindex
    have hend : (w.encoded format).length ≤ index * CHUNK_CHARACTERS := by
      rw [← hvalid.count_eq] at hindex
      change index + 0 = ((w.encoded format).length + CHUNK_CHARACTERS - 1) / CHUNK_CHARACTERS
        at hindex
      unfold CHUNK_CHARACTERS at hindex ⊢
      omega
    rw [loadChunks, List.drop_eq_nil_of_le hend]
  | succ remaining ih =>
    intro index hindex
    have hlt : index < (w.manifest format crypto).count := by omega
    have hsafe : index ≤ MAX_SAFE_INTEGER :=
      hlt.le.trans (hvalid.count_le.trans hvalid.characters_safe)
    have hrest := ih (index + 1) (by omega)
    rw [loadChunks, loadChunk_row hcrypto hsafe (hrows index hlt), hrest]
    exact congrArg Except.ok (slice_append index)

/-- One run of `load` over a manifest, from what each of its calls answers. -/
theorem load_chunked {key blob encoded : String} {s : Settings ν} {value complete : Json ν}
    {manifest : Manifest} (hrow : s key = some ⟨.string blob, true⟩)
    (hopen : crypto.decryptJson key blob = .ok value)
    (hmanifest : manifestFor format value key = .ok (some manifest))
    (hchunks : loadChunks format crypto manifest s 0 manifest.count = .ok encoded)
    (hsame : crypto.fingerprint encoded = manifest.fingerprint)
    (hparse : parseEncoded format encoded = .ok complete) :
    load format crypto key s = .ok (some (complete, some manifest)) := by
  unfold load
  rw [hrow]
  simp only [hopen, hmanifest, hchunks, hparse, hsame, bind, Except.bind, pure, Except.pure, ne_eq,
    not_true_eq_false, if_false]

/-- What `load` makes of a journal whose rows stand in place. -/
theorem load_inPlace (hcrypto : Sealing crypto) (hw : w.Valid) (hfits : w.fits format = true)
    {s : Settings ν} (h : InPlace format crypto w s) :
    load format crypto w.key s = .ok (some (w.value,
      if w.chunked format then some (w.manifest format crypto) else none)) := by
  have hrecord := h.record
  have hchunk := h.chunk
  unfold Write.record at hrecord
  unfold Write.count at hchunk
  by_cases hchunked : w.chunked format = true
  · simp only [hchunked, if_true] at hrecord hchunk ⊢
    have hvalid := manifest_valid hcrypto hw.generation hfits hchunked
    have hopen := hcrypto.opens w.key (manifestJson format (w.manifest format crypto)) w.iv
      (keyed_manifestJson _)
    have hmanifest : manifestFor format (manifestJson format (w.manifest format crypto)) w.key =
        .ok (some (w.manifest format crypto)) := manifestFor_manifestJson hvalid
    have hchunks := loadChunks_rows hcrypto hvalid hchunk (w.manifest format crypto).count 0
      (Nat.zero_add _)
    rw [Nat.zero_mul, List.drop_zero] at hchunks
    have hparse : parseEncoded format (String.ofList (w.encoded format)) = .ok w.value :=
      parseEncoded_encoded hw.keyed
    exact load_chunked hrecord hopen hmanifest hchunks rfl hparse
  · rw [Bool.not_eq_true] at hchunked
    simp only [hchunked] at hrecord ⊢
    have hopen := hcrypto.opens w.key w.value w.iv hw.keyed
    have hplain : manifestFor format w.value w.key = .ok none := by
      unfold manifestFor
      split
      · rename_i members hobject
        rw [hw.noFormat members hobject]
        rfl
      · rfl
    unfold load
    rw [hrecord]
    simp [hopen, hplain, bind, Except.bind, pure, Except.pure]

end FerrumNexus.RecoveryStorage
